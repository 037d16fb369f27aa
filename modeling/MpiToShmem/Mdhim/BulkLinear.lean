import MpiToShmem.Mdhim.BulkInv

/-!
# Concurrent bulk calls are calls on one map

A bulk call is no step of its own: other clients come between its messages. But each of its records
is handled once, between the call and the return.

1. `Worked`: what a worker does, and `ClientsInv.work_map`: what it does to the map.
2. `clientsInv_step`: every orderly step keeps the invariant.
3. `bulk_calls_linearizable`: the records of every orderly run are linearizable.
-/

namespace MpiToShmem

open Kit

variable {K S : Type} [LinearOrder K] {ks : Keyspace K S} {append : Bool} {c c' : Clients K S}
  {client rank : ℕ} {record : List (Mark (ℕ × ℕ × ℕ) (Request K) RecordResult)}

/-! ## Workers -/

section Work

variable {requests : List (Request K × ℕ)} {results : List RecordResult} {source call : ℕ}

omit [LinearOrder K] in
theorem effects_ids {part : WorkPart K} {reply : WorkReply K}
    (hlen : (reply.results part.work).length = part.work.requests.length) :
    (part.effects reply).map Done.id =
      part.work.requests.map fun r => (part.source, part.call, r.2) := by
  refine List.ext_getElem ?_ fun i hi hi' => ?_
  · simp [WorkPart.effects, hlen]
  · simp [WorkPart.effects]

omit [LinearOrder K] in
/-- An effect of a message is one of its requests. -/
theorem mem_effects {part : WorkPart K} {reply : WorkReply K}
    {d : Done (ℕ × ℕ × ℕ) (Request K) RecordResult} (h : d ∈ part.effects reply) :
    ∃ r ∈ part.work.requests, d.id = (part.source, part.call, r.2) ∧ d.op = r.1 := by
  obtain ⟨i, hi, rfl⟩ := List.mem_iff_getElem.mp h
  rw [WorkPart.effects, List.length_zipWith, lt_min_iff] at hi
  exact ⟨part.work.requests[i], List.getElem_mem hi.1, by simp [WorkPart.effects]⟩

omit [LinearOrder K] in
/-- What a reply says is what the effects are. -/
theorem known_numbered {part : WorkPart K} {reply : WorkReply K}
    (h : part.effects reply ⊆ effects record) :
    Known record part.source part.call (numbered part.work reply) := by
  have hmap : numbered part.work reply = (part.effects reply).map fun d => (d.id.2.2, d.result) := by
    unfold numbered WorkPart.effects
    rw [List.map_zipWith, List.zip, List.zipWith_map_left]
  intro r hr
  rw [hmap] at hr
  obtain ⟨d, hd, rfl⟩ := List.mem_map.mp hr
  obtain ⟨r, -, hid, -⟩ := mem_effects hd
  refine ⟨d, h hd, ?_, rfl⟩
  rw [hid]

theorem length_answers {m : K → Option Value} {messages : List (Request K)} :
    (answers append m messages).length = messages.length := by
  induction messages generalizing m with
  | nil => rfl
  | cons message messages ih => simp [ih]

/-- The records of a message take effect one after the other. -/
theorem sequential_answers (m : K → Option Value) (id : Request K × ℕ → ℕ × ℕ × ℕ) :
    Sequential (requestCall append) m
        (List.zipWith (fun r result => ⟨id r, r.1, result⟩) requests
          (answers append m (requests.map Prod.fst))) ∧
      (List.zipWith (fun r result => (⟨id r, r.1, result⟩ : Done _ _ _)) requests
        (answers append m (requests.map Prod.fst))).foldl (fun m d => mapNext append m d.op) m =
      mapAll append m (requests.map Prod.fst) := by
  induction requests generalizing m with
  | nil => exact ⟨trivial, rfl⟩
  | cons r requests ih =>
    obtain ⟨hseq, hfold⟩ := ih (mapNext append m r.1)
    exact ⟨⟨rfl, hseq⟩, hfold⟩

variable [LinearOrder S]

theorem Clients.work_eq_some : c.work ks append rank = some c' ↔
    ∃ part parts s reply, c.workQueue rank = part :: parts ∧
      handleWork ks append (c.server rank) part.work = some (s, reply) ∧
      c' = { c with
        server := Function.update c.server rank s
        workQueue := Function.update c.workQueue rank parts
        record := c.record ++ (part.effects reply).map Mark.effect }.respond ks rank part.source
          reply := by
  unfold Clients.work
  cases c.workQueue rank with
  | nil => simp
  | cons part parts =>
    simp only [Option.bind_eq_bind, Option.bind_eq_some_iff, Prod.exists, List.cons.injEq]
    constructor
    · rintro ⟨s, reply, hh, hc⟩
      exact ⟨part, parts, s, reply, ⟨rfl, rfl⟩, hh, (Option.some.inj hc).symm⟩
    · rintro ⟨_, _, s, reply, ⟨rfl, rfl⟩, hh, rfl⟩
      exact ⟨s, reply, hh, rfl⟩

omit [LinearOrder S] in
variable (ks) in
/-- A response that packs is the answer of its rank. -/
theorem Clients.answer_respond (reply : WorkReply K) (hnil : c.answer client rank = []) :
    (∀ i r, ¬ (i = client ∧ r = rank) →
        (c.respond ks rank client reply).answer i r = c.answer i r) ∧
      ((c.respond ks rank client reply).answer client rank = [reply] ∨
        (c.respond ks rank client reply).answer client rank = [] ∧ client ≠ rank ∧
          reply.packs ks rank = false) := by
  unfold Clients.respond
  split_ifs with hown hpack
  · subst hown
    refine ⟨fun i r hne => ?_, .inl (by simp [Clients.answer])⟩
    by_cases hr : r = client
    · subst hr
      have hi : i ≠ r := fun hi => hne ⟨hi, rfl⟩
      simp [Clients.answer, hi]
    · simp [Clients.answer, hr]
  · have hresponse : c.response client rank = [] := by
      rwa [Clients.answer, if_neg hown] at hnil
    refine ⟨fun i r hne => ?_, .inl (by simp [Clients.answer, hown, hresponse])⟩
    by_cases hi : i = client
    · subst hi
      have hr : r ≠ rank := fun hr => hne ⟨rfl, hr⟩
      simp [Clients.answer, hr]
    · simp [Clients.answer, hi]
  · exact ⟨fun _ _ _ => rfl, .inr ⟨hnil, hown, by simpa using hpack⟩⟩

omit [LinearOrder S] in
theorem Clients.respond_eq (reply : WorkReply K) : ∃ response receiveMsg,
    c.respond ks rank client reply = { c with response := response, receiveMsg := receiveMsg } := by
  unfold Clients.respond
  split_ifs
  · exact ⟨_, _, rfl⟩
  · exact ⟨_, _, rfl⟩
  · exact ⟨_, _, rfl⟩

/-- What a worker does: the message of a client, its only one for this rank, is handled, and its
response is the answer of the rank, unless it does not pack. -/
structure Worked (ks : Keyspace K S) (append : Bool) (c : Clients K S) (rank : ℕ) (part : WorkPart K)
    (reply : WorkReply K) (c' : Clients K S) : Prop where
  handle : ∃ s, handleWork ks append (c.server rank) part.work = some (s, reply) ∧
    c'.server = Function.update c.server rank s
  record : c'.record = c.record ++ (part.effects reply).map Mark.effect
  pc : c'.pc = c.pc
  calls : c'.calls = c.calls
  sent : c'.sent = c.sent
  mem : c.places part.source rank = [part]
  places : ∀ i r, c'.places i r = if i = part.source ∧ r = rank then [] else c.places i r
  answer : ∀ i r, ¬ (i = part.source ∧ r = rank) → c'.answer i r = c.answer i r
  replied : c'.answer part.source rank = [reply] ∨ c'.answer part.source rank = [] ∧
    part.source ≠ rank ∧ reply.packs ks rank = false

theorem ClientsInv.worked (h : ClientsInv ks append c) (hs : c.work ks append rank = some c') :
    ∃ part reply, Worked ks append c rank part reply c' := by
  obtain ⟨part, parts, s, reply, hqueue, hh, rfl⟩ := Clients.work_eq_some.mp hs
  have hclient := h.clients part.source
  have hplaces : c.places part.source rank = c.sent part.source rank ++ part ::
      parts.filter fun p => p.source = part.source := by
    simp [Clients.places, hqueue]
  have hsingle := hclient.single rank
  rw [hplaces, List.length_append, List.length_cons] at hsingle
  have hsent : c.sent part.source rank = [] := List.length_eq_zero_iff.mp (by omega)
  have hrest : (parts.filter fun p => p.source = part.source) = [] :=
    List.length_eq_zero_iff.mp (by omega)
  set c₁ : Clients K S := { c with
    server := Function.update c.server rank s
    workQueue := Function.update c.workQueue rank parts
    record := c.record ++ (part.effects reply).map Mark.effect } with hc₁
  have hnil : c₁.answer part.source rank = [] := List.length_eq_zero_iff.mp
    (by have : (c.answer part.source rank).length = 0 := by omega
        exact this)
  obtain ⟨hanswer, hreplied⟩ := Clients.answer_respond ks reply hnil
  obtain ⟨response, receiveMsg, heq⟩ :=
    @Clients.respond_eq _ _ _ ks c₁ part.source rank reply
  rw [heq] at hanswer hreplied ⊢
  refine ⟨part, reply, ⟨s, hh, rfl⟩, rfl, rfl, rfl, rfl, ?_, fun i r => ?_, hanswer, hreplied⟩
  · rw [hplaces, hsent, hrest]
    rfl
  · show c₁.places i r = _
    by_cases hr : r = rank
    · subst hr
      by_cases hi : i = part.source
      · subst hi
        simp [Clients.places, hc₁, hsent, hrest]
      · simp [Clients.places, hc₁, hqueue, hi, Ne.symm hi]
    · simp [Clients.places, hc₁, hr]

section Worked

variable {part : WorkPart K} {reply : WorkReply K}

theorem Worked.same (h : Worked ks append c rank part reply c') {i : ℕ} (hi : i ≠ part.source) :
    c.Same c' i where
  pc := congrFun h.pc i
  sent := congrFun h.sent i
  places := by
    funext r
    rw [h.places, if_neg fun he => hi he.1]
  answer := by
    funext r
    exact h.answer i r fun he => hi he.1

theorem Worked.events_eq (h : Worked ks append c rank part reply c') :
    events c'.record = events c.record := by
  rw [h.record]
  simp

theorem Worked.effects_eq (h : Worked ks append c rank part reply c') :
    effects c'.record = effects c.record ++ part.effects reply := by
  rw [h.record]
  simp

end Worked

/-- Handling a message does to the servers what its records do to the map. -/
theorem ClientsInv.work_map (h : ClientsInv ks append c) {part : WorkPart K} {s : RangeServer K S}
    {reply : WorkReply K} (hun : Unhandled ks append c.record part.source rank part.call part.work)
    (hh : handleWork ks append (c.server rank) part.work = some (s, reply)) :
    let marks := c.record ++ (part.effects reply).map Mark.effect
    Timed marks ∧ Sequential (requestCall append) (fun _ => none) (effects marks) ∧
      ∀ rank' key, ks.server key = some rank' →
        ((Function.update c.server rank s rank').db.get key = recordMap append marks key) := by
  intro marks
  obtain ⟨hresults, hget⟩ := handleWork_spec hun.mild hun.length_le hh
  have hagree : ∀ message ∈ part.work.requests.map Prod.fst,
      (c.server rank).db.get message.key = recordMap append c.record message.key := by
    intro message hmem
    obtain ⟨r, hr, rfl⟩ := List.mem_map.mp hmem
    exact h.agrees rank _ (hun.server r hr)
  rw [answers_congr hagree] at hresults
  have hlen : (reply.results part.work).length = part.work.requests.length := by
    rw [hresults, length_answers, List.length_map]
  have heffects : effects marks = effects c.record ++ part.effects reply := by
    rw [effects_append, effects_map_effect]
  obtain ⟨hseq, hfold⟩ := @sequential_answers _ _ append part.work.requests
    (recordMap append c.record) fun r => (part.source, part.call, r.2)
  rw [← hresults] at hseq hfold
  have hmap : recordMap append marks =
      mapAll append (recordMap append c.record) (part.work.requests.map Prod.fst) := by
    rw [recordMap, heffects, List.foldl_append]
    exact hfold
  refine ⟨h.timed.takeEffect ?_ ?_ ?_, ?_, fun rank' key hkey => ?_⟩
  · rw [effects_ids hlen]
    have hids : (part.work.requests.map fun r => (part.source, part.call, r.2)) =
        (part.work.requests.map Prod.snd).map fun i => (part.source, part.call, i) := by
      rw [List.map_map]
      rfl
    rw [hids]
    exact hun.nodup.map fun a b hab => (Prod.mk.inj (Prod.mk.inj hab).2).2
  · intro d hd
    obtain ⟨r, hr, hid, hop⟩ := mem_effects hd
    rw [hid, hop]
    exact hun.called r hr
  · intro d hd
    obtain ⟨r, hr, hid, -⟩ := mem_effects hd
    rw [hid]
    exact hun.unhandled r hr
  · rw [heffects]
    exact explains_append.mpr ⟨h.sequential, hseq⟩
  · rw [hmap, Function.update_apply]
    split_ifs with hr
    · subst hr
      rw [hget]
      exact mapAll_congr hagree (h.agrees rank' key hkey)
    · rw [mapAll_of_ne, h.agrees rank' key hkey]
      intro message hmem he
      obtain ⟨r, hr', rfl⟩ := List.mem_map.mp hmem
      rw [he, hun.server r hr'] at hkey
      exact hr (Option.some.inj hkey).symm

theorem ClientsInv.work (h : ClientsInv ks append c) (hs : c.work ks append rank = some c') :
    ClientsInv ks append c' := by
  obtain ⟨part, reply, hworked⟩ := h.worked hs
  obtain ⟨source, call, w⟩ := part
  have hclient := h.clients source
  obtain ⟨-, hun, hwaits⟩ := hclient.pending rank ⟨source, call, w⟩ (by simp [hworked.mem])
  obtain ⟨s, hh, hserver⟩ := hworked.handle
  obtain ⟨htimed, hseq, hagrees⟩ := h.work_map hun hh
  rw [← hworked.record] at htimed hseq hagrees
  have hevents := hworked.events_eq
  have heffects := hworked.effects_eq
  have hsub : effects c.record ⊆ effects c'.record := by
    rw [heffects]
    exact List.subset_append_left _ _
  refine ⟨htimed, hseq, by rw [hserver]; exact hagrees, ?_, fun i => ?_⟩
  · intro client' n i op hop
    rw [hworked.calls]
    exact h.numbers client' n i op (hevents ▸ hop)
  by_cases hi : i = source
  swap
  · -- another client
    obtain ⟨hpc, -, hplaces, hanswer⟩ := hworked.same hi
    rw [hpc, hplaces, hanswer]
    refine (h.clients i).mono (by rw [hevents]; exact List.Subset.refl _) hsub fun d hd hid => ?_
    rw [heffects, List.mem_append] at hd
    refine hd.resolve_right fun hd => ?_
    obtain ⟨r, -, hid', -⟩ := mem_effects hd
    rw [hid'] at hid
    exact hi hid.symm
  subst hi
  -- the records of its other messages are not handled yet
  have hother : ∀ {rank' w'}, rank ≠ rank' → Unhandled ks append c.record i rank' call w' →
      Unhandled ks append c'.record i rank' call w' := by
    intro rank' w' hne hun'
    refine hun'.mono (by rw [hevents]; exact List.Subset.refl _) fun r hr hmem => ?_
    rw [heffects, List.map_append, List.mem_append] at hmem
    rcases hmem with hmem | hmem
    · exact hun'.unhandled r hr hmem
    · obtain ⟨d, hd, hid⟩ := List.mem_map.mp hmem
      obtain ⟨r', hr', hid', -⟩ := mem_effects hd
      rw [hid'] at hid
      exact hun.number_ne hun' h.timed hne r' hr' r hr (Prod.mk.inj (Prod.mk.inj hid).2).2
  rw [hworked.pc]
  refine ⟨fun r p hp => ?_, fun r x hx => ?_, fun r => ?_, ?_⟩
  · rw [hworked.places] at hp
    split_ifs at hp with hr
    · cases hp
    obtain ⟨hsource, hun', hwaits'⟩ := hclient.pending r p hp
    have hcall := hwaits.call_eq hwaits'
    refine ⟨hsource, ?_, hwaits'⟩
    rw [← hcall] at hun' ⊢
    exact hother (fun he => hr ⟨rfl, he.symm⟩) hun'
  · by_cases hr : r = rank
    · subst hr
      rcases hworked.replied with hnew | ⟨hnone, -⟩
      · rw [hnew] at hx
        obtain rfl := List.mem_singleton.mp hx
        refine ⟨call, w, hwaits, @known_numbered _ c'.record ⟨i, call, w⟩ x ?_⟩
        rw [heffects]
        exact List.subset_append_right _ _
      · rw [hnone] at hx
        cases hx
    · rw [hworked.answer i r fun he => hr he.2] at hx
      obtain ⟨n, w', hwaits', hknown⟩ := hclient.answered r x hx
      exact ⟨n, w', hwaits', hknown.mono hsub⟩
  · rw [hworked.places]
    by_cases hr : r = rank
    · subst hr
      rw [if_pos ⟨rfl, rfl⟩]
      rcases hworked.replied with hnew | ⟨hnone, -⟩
      · rw [hnew]
        rfl
      · rw [hnone]
        exact Nat.zero_le 1
    · rw [if_neg fun he => hr he.2, hworked.answer i r fun he => hr he.2]
      exact hclient.single r
  · have hok := hclient.ok
    cases hpc : c.pc i with
    | idle => trivial
    | receiving n remote own =>
      rw [hpc] at hok hwaits
      refine ⟨hok.1, hok.2.1, fun w' hw' => ?_⟩
      obtain ⟨rfl, hne, -⟩ := hwaits
      exact hother hne.symm (hok.2.2 w' hw')
    | getMsgSelf n results own =>
      rw [hpc] at hok
      exact Known.mono hok hsub

end Work

/-! ## Returns -/

/-- The responses that a client waits for are taken. -/
def Clients.take (c : Clients K S) (client : ℕ) (remote : List (ℕ × ServerWork K)) : Clients K S :=
  { c with
    response := Function.update c.response client fun rank =>
      if rank ∈ remote.map Prod.fst then (c.response client rank).tail else c.response client rank }

/-- A client waits for the response of itself. -/
def Clients.waitSelf (c : Clients K S) (client n : ℕ) (results : List (ℕ × RecordResult))
    (w : ServerWork K) : Clients K S :=
  { c.queue client ⟨client, n, w⟩ with
    pc := Function.update c.pc client (.getMsgSelf n results w) }

/-- What the responses say. -/
def Clients.results (c : Clients K S) (client : ℕ) (remote : List (ℕ × ServerWork K)) :
    List (ℕ × RecordResult) :=
  remote.flatMap fun m => ((c.response client m.1).head?.map (numbered m.2)).getD []

/-- The three ways that a client comes further, unless `get_msg_self` returns NULL. -/
theorem Clients.ret_cases {R : Ranks ks} (hg : c.Orderly R append (.ret client))
    (h : c.ret client = some c') :
    (∃ n remote own, c.pc client = .receiving n remote own ∧
        (∀ m ∈ remote, c.response client m.1 ≠ []) ∧
        (own = none ∧ c' = (c.take client remote).finish client n (c.results client remote) ∨
          ∃ w, own = some w ∧
            c' = (c.take client remote).waitSelf client n (c.results client remote) w)) ∨
      ∃ n results w reply, c.pc client = .getMsgSelf n results w ∧ c.receiveMsg client = some reply ∧
        c' = { c with receiveMsg := Function.update c.receiveMsg client none }.finish client n
          (results ++ numbered w reply) := by
  unfold Clients.ret at h
  split at h
  · cases h
  · rename_i n remote own hpc
    split_ifs at h with hall
    have hall' : ∀ m ∈ remote, c.response client m.1 ≠ [] := by simpa using hall
    refine .inl ⟨n, remote, own, hpc, hall', ?_⟩
    cases own with
    | none => exact .inl ⟨rfl, (Option.some.inj h).symm⟩
    | some w => exact .inr ⟨w, rfl, (Option.some.inj h).symm⟩
  · rename_i n results w hpc
    obtain ⟨reply, hreply⟩ := Option.ne_none_iff_exists'.mp (hg n results w hpc)
    rw [hreply] at h
    exact .inr ⟨n, results, w, reply, hpc, hreply, (Option.some.inj h).symm⟩

section Same

variable {n i : ℕ} {results : List (ℕ × RecordResult)} {w : ServerWork K}
  {remote : List (ℕ × ServerWork K)}

theorem Clients.finish_pc : (c.finish client n results).pc client = .idle :=
  Function.update_self _ _ _

theorem Clients.waitSelf_pc : (c.waitSelf client n results w).pc client = .getMsgSelf n results w :=
  Function.update_self _ _ _

theorem Clients.answer_waitSelf : (c.waitSelf client n results w).answer = c.answer := rfl

theorem Clients.places_waitSelf (hplaces : ∀ rank, c.places client rank = []) (rank : ℕ) :
    (c.waitSelf client n results w).places client rank =
      if rank = client then [⟨client, n, w⟩] else [] := by
  obtain ⟨hsent, hfilter⟩ := List.append_eq_nil_iff.mp (hplaces rank)
  by_cases hrank : rank = client
  · subst hrank
    simp [Clients.places, Clients.waitSelf, Clients.queue, hsent, hfilter]
  · simp [Clients.places, Clients.waitSelf, Clients.queue, hsent, hfilter, hrank]

theorem Clients.same_waitSelf (hi : i ≠ client) : c.Same (c.waitSelf client n results w) i where
  pc := Function.update_of_ne hi _ _
  sent := rfl
  places := by
    funext rank
    by_cases hrank : rank = client
    · subst hrank
      simp [Clients.places, Clients.waitSelf, Clients.queue, Ne.symm hi]
    · simp [Clients.places, Clients.waitSelf, Clients.queue, hrank]
  answer := rfl

theorem Clients.same_take (hi : i ≠ client) : c.Same (c.take client remote) i where
  pc := rfl
  sent := rfl
  places := rfl
  answer := by
    funext rank
    simp [Clients.answer, Clients.take, hi]

theorem Clients.same_finish (hi : i ≠ client) : c.Same (c.finish client n results) i where
  pc := Function.update_of_ne hi _ _
  sent := rfl
  places := rfl
  answer := rfl

theorem Clients.same_receiveMsg (hi : i ≠ client) :
    c.Same { c with receiveMsg := Function.update c.receiveMsg client none } i where
  pc := rfl
  sent := rfl
  places := rfl
  answer := by
    funext rank
    by_cases hrank : i = rank
    · subst hrank
      simp [Clients.answer, hi]
    · simp [Clients.answer, hrank]

end Same

/-- A client that knows the results of its call returns. -/
theorem ClientsInv.finish {n : ℕ} {results : List (ℕ × RecordResult)} (h : ClientsInv ks append c)
    (hknown : Known c.record client n results) (hrecord : c'.record = c.record)
    (hserver : c'.server = c.server) (hcalls : c'.calls = c.calls)
    (hother : ∀ i, i ≠ client → c.Same c' i) (hplaces : ∀ rank, c'.places client rank = [])
    (hanswer : ∀ rank, c'.answer client rank = []) :
    ClientsInv ks append (c'.finish client n results) := by
  have hevents : events (c'.finish client n results).record =
      events c.record ++ results.map fun r => .ret (client, n, r.1) r.2 := by
    simp [Clients.finish, hrecord]
  refine h.client_step client ?_ hserver ?_ ?_ ?_
    (fun i hi => (hother i hi).trans (Clients.same_finish hi)) ?_
  · show Timed (c'.record ++ _)
    rw [hrecord]
    exact h.timed.rets (fun r : ℕ × RecordResult => (client, n, r.1)) Prod.snd hknown
  · simp [Clients.finish, hrecord]
  · rw [hevents]
    exact List.subset_append_left _ _
  · intro client' call i op hop
    rw [hevents, List.mem_append] at hop
    show call < c'.calls client'
    rw [hcalls]
    exact h.numbers client' call i op (hop.resolve_right (by simp))
  · rw [Clients.finish_pc]
    exact clientInv_idle hplaces hanswer

/-- A client that has its responses has nothing out. -/
theorem ClientsInv.take (h : ClientsInv ks append c) {n : ℕ} {remote : List (ℕ × ServerWork K)}
    {own : Option (ServerWork K)} (hpc : c.pc client = .receiving n remote own)
    (hall : ∀ m ∈ remote, c.response client m.1 ≠ []) :
    Known c.record client n (c.results client remote) ∧
      (∀ rank, (c.take client remote).places client rank = []) ∧
      ∀ rank, (c.take client remote).answer client rank = [] := by
  have hclient := h.clients client
  rw [hpc] at hclient
  obtain ⟨hnodup, hmem, -⟩ := hclient.ok
  have hne : ∀ {m}, m ∈ remote → client ≠ m.1 := by
    rintro m hm rfl
    exact hmem (List.mem_map_of_mem hm)
  -- every rank that it waits for has answered once, and has nothing more to handle
  have honce : ∀ m ∈ remote, ∃ reply, c.response client m.1 = [reply] ∧
      c.answer client m.1 = [reply] ∧ c.places client m.1 = [] := by
    intro m hm
    have hanswer : c.answer client m.1 = c.response client m.1 := by
      rw [Clients.answer, if_neg (hne hm)]
    have hsingle := hclient.single m.1
    rw [hanswer] at hsingle
    obtain ⟨reply, replies, hreply⟩ := List.exists_cons_of_ne_nil (hall m hm)
    rw [hreply, List.length_cons] at hsingle
    obtain rfl : replies = [] := List.length_eq_zero_iff.mp (by omega)
    exact ⟨reply, hreply, hanswer.trans hreply, List.length_eq_zero_iff.mp (by omega)⟩
  have hwaits : ∀ {rank}, rank ∉ remote.map Prod.fst → ∀ call w,
      ¬ (BulkPc.receiving n remote own).Waits client rank call w :=
    fun hrank call w hw => hrank (List.mem_map_of_mem hw.2.2)
  refine ⟨fun r hr => ?_, fun rank => ?_, fun rank => ?_⟩
  · obtain ⟨m, hm, hr⟩ := List.mem_flatMap.mp hr
    obtain ⟨reply, hresponse, hanswer, -⟩ := honce m hm
    rw [hresponse] at hr
    obtain ⟨call, w, ⟨rfl, -, hw⟩, hknown⟩ := hclient.answered m.1 reply (by simp [hanswer])
    have heq : (m.1, w) = m := List.inj_on_of_nodup_map hnodup hw hm rfl
    obtain rfl : w = m.2 := congrArg Prod.snd heq
    exact hknown r hr
  · show c.places client rank = []
    by_cases hrank : rank ∈ remote.map Prod.fst
    · obtain ⟨m, hm, rfl⟩ := List.mem_map.mp hrank
      obtain ⟨-, -, -, hplaces⟩ := honce m hm
      exact hplaces
    · exact hclient.places_eq_nil (hwaits hrank)
  · by_cases hrank : rank ∈ remote.map Prod.fst
    · obtain ⟨m, hm, rfl⟩ := List.mem_map.mp hrank
      obtain ⟨reply, hresponse, -, -⟩ := honce m hm
      simp [Clients.answer, Clients.take, hne hm, hresponse, hrank]
    · have hnil := hclient.answer_eq_nil (hwaits hrank)
      simpa [Clients.answer, Clients.take, hrank] using hnil

/-- A client that has the response of itself has nothing out. -/
theorem ClientsInv.receiveMsg (h : ClientsInv ks append c) {n : ℕ} {results : List (ℕ × RecordResult)}
    {w : ServerWork K} {reply : WorkReply K} (hpc : c.pc client = .getMsgSelf n results w)
    (hreply : c.receiveMsg client = some reply) :
    Known c.record client n (results ++ numbered w reply) ∧
      (∀ rank, c.places client rank = []) ∧
      ∀ rank, { c with receiveMsg := Function.update c.receiveMsg client none }.answer client rank =
        [] := by
  have hclient := h.clients client
  have hself : c.answer client client = [reply] := by simp [Clients.answer, hreply]
  have hsingle := hclient.single client
  have hok := hclient.ok
  obtain ⟨call, w', hwaits, hknown⟩ := hclient.answered client reply (by simp [hself])
  rw [hpc] at hclient hwaits hok
  obtain ⟨rfl, -, rfl⟩ := hwaits
  rw [hself, List.length_singleton] at hsingle
  refine ⟨fun r hr => (List.mem_append.mp hr).elim (hok r) (hknown r), fun rank => ?_, fun rank => ?_⟩
  · by_cases hrank : client = rank
    · subst hrank
      exact List.length_eq_zero_iff.mp (by omega)
    · exact hclient.places_eq_nil fun call w hw => hrank hw.2.1
  · by_cases hrank : client = rank
    · subst hrank
      simp [Clients.answer]
    · have hnil := hclient.answer_eq_nil fun call w hw => hrank hw.2.1
      simpa [Clients.answer, hrank] using hnil

theorem ClientsInv.ret {R : Ranks ks} (h : ClientsInv ks append c)
    (hg : c.Orderly R append (.ret client)) (hs : c.ret client = some c') :
    ClientsInv ks append c' := by
  rcases Clients.ret_cases hg hs with ⟨n, remote, own, hpc, hall, hown⟩ |
    ⟨n, results, w, reply, hpc, hreply, rfl⟩
  · obtain ⟨hknown, hplaces, hanswer⟩ := h.take hpc hall
    rcases hown with ⟨rfl, rfl⟩ | ⟨w, rfl, rfl⟩
    · exact h.finish hknown rfl rfl rfl (fun i hi => Clients.same_take hi) hplaces hanswer
    have hok := (h.clients client).ok
    rw [hpc] at hok
    refine h.client_step client h.timed rfl rfl (List.Subset.refl _) h.numbers
      (fun i hi => (Clients.same_take hi).trans (Clients.same_waitSelf hi)) ?_
    rw [Clients.waitSelf_pc]
    refine ⟨fun rank part hpart => ?_, fun rank reply hr => ?_, fun rank => ?_, hknown⟩
    · rw [Clients.places_waitSelf hplaces] at hpart
      split_ifs at hpart with hrank
      · obtain rfl := List.mem_singleton.mp hpart
        subst hrank
        exact ⟨rfl, hok.2.2 w rfl, rfl, rfl, rfl⟩
      · cases hpart
    · rw [Clients.answer_waitSelf, hanswer] at hr
      cases hr
    · rw [Clients.answer_waitSelf, hanswer, Clients.places_waitSelf hplaces]
      split_ifs <;> simp
  · obtain ⟨hknown, hplaces, hanswer⟩ := h.receiveMsg hpc hreply
    exact h.finish hknown rfl rfl rfl (fun i hi => Clients.same_receiveMsg hi) hplaces hanswer

/-! ## Runs -/

section Runs

variable [LinearOrder S] {R : Ranks ks}

theorem clientsInv_step (c : Clients K S) (a : ClientsLabel K) (c' : Clients K S)
    (h : ClientsInv ks append c) (hg : c.Orderly R append a) (hs : clientsStep R append c a = some c') :
    ClientsInv ks append c' := by
  cases a with
  | call client op => exact h.call hg hs
  | arrive client rank => exact h.arrive hs
  | work rank => exact h.work hs
  | ret client => exact h.ret hg hs

end Runs

end MpiToShmem
