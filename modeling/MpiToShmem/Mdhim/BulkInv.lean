import MpiToShmem.Mdhim.BulkClients

/-!
# What a client with bulk calls waits for

A client that waits for a rank has one message out for it: on its way, in the queue of the rank, or
answered.

1. `ClientInv`: what a client waits for, and what has come of it.
2. `ClientsInv`: the servers agree with the map of the handled records.
3. `ClientsInv.call` and `ClientsInv.arrive`: the calls and the network keep it.
-/

namespace MpiToShmem

open Kit

variable {K S : Type} [LinearOrder K]

/-- The messages of a client for a rank that are not handled yet. -/
def Clients.places (c : Clients K S) (client rank : ℕ) : List (WorkPart K) :=
  c.sent client rank ++ (c.workQueue rank).filter fun part => part.source = client

/-- The responses of a rank that a client has not taken yet. -/
def Clients.answer (c : Clients K S) (client rank : ℕ) : List (WorkReply K) :=
  if client = rank then (c.receiveMsg rank).toList else c.response client rank

/-- Nothing has happened to a client. -/
structure Clients.Same (c c' : Clients K S) (client : ℕ) : Prop where
  pc : c'.pc client = c.pc client
  sent : c'.sent client = c.sent client
  places : c'.places client = c.places client
  answer : c'.answer client = c.answer client

/-- The client waits for the response of a rank. -/
def BulkPc.Waits (client rank call : ℕ) (w : ServerWork K) : BulkPc K → Prop
  | .idle => False
  | .receiving n remote _ => n = call ∧ client ≠ rank ∧ (rank, w) ∈ remote
  | .getMsgSelf n _ own => n = call ∧ client = rank ∧ own = w

/-- The map that the records make which have taken effect. -/
def recordMap (append : Bool) (record : List (Mark (ℕ × ℕ × ℕ) (Request K) RecordResult)) :
    K → Option Value :=
  (effects record).foldl (fun m d => mapNext append m d.op) fun _ => none

section Inv

variable (ks : Keyspace K S) (append : Bool)
  (record : List (Mark (ℕ × ℕ × ℕ) (Request K) RecordResult)) (client : ℕ)

/-- The records of a message have been called and not been handled. -/
structure Unhandled (rank call : ℕ) (w : ServerWork K) : Prop where
  server : ∀ r ∈ w.requests, ks.server r.1.key = some rank
  called : ∀ r ∈ w.requests, .call (client, call, r.2) r.1 ∈ events record
  unhandled : ∀ r ∈ w.requests, (client, call, r.2) ∉ (effects record).map Done.id
  nodup : (w.requests.map Prod.snd).Nodup
  length_le : w.requests.length ≤ maxBulkOps
  mild : w.Mild append

/-- These are the results of records of a call. -/
def Known (call : ℕ) (results : List (ℕ × RecordResult)) : Prop :=
  ∀ r ∈ results, ∃ d ∈ effects record, d.id = (client, call, r.1) ∧ d.result = r.2

/-- What a client knows of its call. -/
def BulkPc.Ok : BulkPc K → Prop
  | .idle => True
  | .receiving n remote own => (remote.map Prod.fst).Nodup ∧ client ∉ remote.map Prod.fst ∧
      ∀ w ∈ own, Unhandled ks append record client client n w
  | .getMsgSelf n results _ => Known record client n results

/-- A client waits for each of its messages, of which there is at most one for a rank, unhandled or
answered. -/
structure ClientInv (pc : BulkPc K) (places : ℕ → List (WorkPart K))
    (answer : ℕ → List (WorkReply K)) : Prop where
  pending : ∀ rank, ∀ part ∈ places rank, part.source = client ∧
    Unhandled ks append record client rank part.call part.work ∧
    pc.Waits client rank part.call part.work
  answered : ∀ rank, ∀ reply ∈ answer rank, ∃ call w, pc.Waits client rank call w ∧
    Known record client call (numbered w reply)
  single : ∀ rank, (places rank).length + (answer rank).length ≤ 1
  ok : pc.Ok ks append record client

structure ClientsInv (c : Clients K S) : Prop where
  timed : Timed c.record
  sequential : Sequential (requestCall append) (fun _ => none) (effects c.record)
  agrees : ∀ rank key, ks.server key = some rank →
    (c.server rank).db.get key = recordMap append c.record key
  numbers : ∀ client call i op, .call (client, call, i) op ∈ events c.record → call < c.calls client
  clients : ∀ client,
    ClientInv ks append c.record client (c.pc client) (c.places client) (c.answer client)

end Inv

variable {ks : Keyspace K S} {append : Bool} {c c' : Clients K S} {client rank : ℕ}
  {record record' : List (Mark (ℕ × ℕ × ℕ) (Request K) RecordResult)}
  {pc : BulkPc K} {places : ℕ → List (WorkPart K)} {answer : ℕ → List (WorkReply K)}

/-! ## Clients -/

theorem Clients.Same.trans {c₁ c₂ : Clients K S} (h : c.Same c₁ client) (h' : c₁.Same c₂ client) :
    c.Same c₂ client :=
  ⟨h'.pc.trans h.pc, h'.sent.trans h.sent, h'.places.trans h.places, h'.answer.trans h.answer⟩

omit [LinearOrder K] in
theorem BulkPc.Waits.call_eq {rank' call call' : ℕ} {w w' : ServerWork K}
    (h : pc.Waits client rank call w) (h' : pc.Waits client rank' call' w') : call = call' := by
  cases pc with
  | idle => cases h
  | receiving n remote own => exact h.1.symm.trans h'.1
  | getMsgSelf n results own => exact h.1.symm.trans h'.1

omit [LinearOrder K] in
theorem Unhandled.mono {call : ℕ} {w : ServerWork K} (h : Unhandled ks append record client rank call w)
    (hevents : events record ⊆ events record')
    (hnew : ∀ r ∈ w.requests, (client, call, r.2) ∉ (effects record').map Done.id) :
    Unhandled ks append record' client rank call w :=
  ⟨h.server, fun r hr => hevents (h.called r hr), hnew, h.nodup, h.length_le, h.mild⟩

omit [LinearOrder K] in
theorem Known.mono {call : ℕ} {results : List (ℕ × RecordResult)} (h : Known record client call results)
    (heffects : effects record ⊆ effects record') : Known record' client call results := by
  intro r hr
  obtain ⟨d, hd, hdr⟩ := h r hr
  exact ⟨d, heffects hd, hdr⟩

omit [LinearOrder K] in
/-- Messages to different ranks have different records. -/
theorem Unhandled.number_ne {rank' call : ℕ} {w w' : ServerWork K}
    (h : Unhandled ks append record client rank call w)
    (h' : Unhandled ks append record client rank' call w') (htimed : Timed record) (hne : rank ≠ rank') :
    ∀ r ∈ w.requests, ∀ r' ∈ w'.requests, r.2 ≠ r'.2 := by
  intro r hr r' hr' he
  have hcalled := h'.called r' hr'
  rw [← he] at hcalled
  have hop : r.1 = r'.1 := htimed.call_inj (h.called r hr) hcalled
  have hserver := h.server r hr
  rw [hop, h'.server r' hr'] at hserver
  exact hne (Option.some.inj hserver).symm

omit [LinearOrder K] in
/-- What other clients do leaves a client as it is. -/
theorem ClientInv.mono (h : ClientInv ks append record client pc places answer)
    (hevents : events record ⊆ events record') (heffects : effects record ⊆ effects record')
    (hold : ∀ d ∈ effects record', d.id.1 = client → d ∈ effects record) :
    ClientInv ks append record' client pc places answer := by
  have hnew : ∀ call i, (client, call, i) ∉ (effects record).map Done.id →
      (client, call, i) ∉ (effects record').map Done.id := by
    intro call i hnot hmem
    obtain ⟨d, hd, hid⟩ := List.mem_map.mp hmem
    exact hnot (List.mem_map.mpr ⟨d, hold d hd (by rw [hid]), hid⟩)
  refine ⟨fun rank part hpart => ?_, fun rank reply hreply => ?_, h.single, ?_⟩
  · obtain ⟨hsource, hun, hwaits⟩ := h.pending rank part hpart
    exact ⟨hsource, hun.mono hevents fun r hr => hnew _ _ (hun.unhandled r hr), hwaits⟩
  · obtain ⟨call, w, hwaits, hknown⟩ := h.answered rank reply hreply
    exact ⟨call, w, hwaits, hknown.mono heffects⟩
  · have hok := h.ok
    cases pc with
    | idle => trivial
    | receiving n remote own =>
      exact ⟨hok.1, hok.2.1, fun w hw => (hok.2.2 w hw).mono hevents fun r hr =>
        hnew _ _ ((hok.2.2 w hw).unhandled r hr)⟩
    | getMsgSelf n results own => exact Known.mono hok heffects

omit [LinearOrder K] in
theorem clientInv_idle (hplaces : ∀ rank, places rank = []) (hanswer : ∀ rank, answer rank = []) :
    ClientInv ks append record client .idle places answer where
  pending rank part h := by
    rw [hplaces rank] at h
    cases h
  answered rank reply h := by
    rw [hanswer rank] at h
    cases h
  single rank := by
    rw [hplaces rank, hanswer rank]
    exact Nat.zero_le 1
  ok := trivial

omit [LinearOrder K] in
/-- A client waits for one message of a rank. -/
theorem ClientInv.waits_inj (h : ClientInv ks append record client pc places answer) {call call' : ℕ}
    {w w' : ServerWork K} (hw : pc.Waits client rank call w) (hw' : pc.Waits client rank call' w') :
    call = call' ∧ w = w' := by
  refine ⟨hw.call_eq hw', ?_⟩
  have hok := h.ok
  cases pc with
  | idle => cases hw
  | receiving n remote own =>
    exact congrArg Prod.snd (List.inj_on_of_nodup_map hok.1 hw.2.2 hw'.2.2 rfl)
  | getMsgSelf n results own => exact hw.2.2.symm.trans hw'.2.2

omit [LinearOrder K] in
/-- A client has nothing out for a rank that it does not wait for. -/
theorem ClientInv.places_eq_nil (h : ClientInv ks append record client pc places answer)
    (hno : ∀ call w, ¬ pc.Waits client rank call w) : places rank = [] :=
  List.eq_nil_iff_forall_not_mem.mpr fun part hpart => hno _ _ (h.pending rank part hpart).2.2

omit [LinearOrder K] in
theorem ClientInv.answer_eq_nil (h : ClientInv ks append record client pc places answer)
    (hno : ∀ call w, ¬ pc.Waits client rank call w) : answer rank = [] :=
  List.eq_nil_iff_forall_not_mem.mpr fun reply hreply => by
    obtain ⟨call, w, hwaits, -⟩ := h.answered rank reply hreply
    exact hno call w hwaits

theorem clientsInv_init : ClientsInv ks append (Clients.init : Clients K S) where
  timed := .start
  sequential := trivial
  agrees _ key _ := OrdMap.get_empty key
  numbers _ _ _ _ h := by cases h
  clients client := clientInv_idle (fun _ => rfl) fun rank => by
    unfold Clients.answer
    split_ifs <;> rfl

/-- A client between calls has nothing out. -/
theorem ClientsInv.idle (h : ClientsInv ks append c) (hidle : c.pc client = .idle) (rank : ℕ) :
    c.places client rank = [] ∧ c.answer client rank = [] := by
  have hclient := h.clients client
  rw [hidle] at hclient
  exact ⟨hclient.places_eq_nil fun _ _ hw => hw, hclient.answer_eq_nil fun _ _ hw => hw⟩

/-- A step of one client. -/
theorem ClientsInv.client_step (h : ClientsInv ks append c) (client : ℕ) (htimed : Timed c'.record)
    (hserver : c'.server = c.server) (heffects : effects c'.record = effects c.record)
    (hevents : events c.record ⊆ events c'.record)
    (hnumbers : ∀ client call i op, .call (client, call, i) op ∈ events c'.record →
      call < c'.calls client)
    (hother : ∀ i, i ≠ client → c.Same c' i)
    (hclient : ClientInv ks append c'.record client (c'.pc client) (c'.places client)
      (c'.answer client)) : ClientsInv ks append c' := by
  refine ⟨htimed, ?_, ?_, hnumbers, fun i => ?_⟩
  · rw [heffects]
    exact h.sequential
  · rw [recordMap, heffects, hserver]
    exact h.agrees
  · by_cases hi : i = client
    · subst hi
      exact hclient
    · obtain ⟨hpc, -, hplaces, hanswer⟩ := hother i hi
      rw [hpc, hplaces, hanswer]
      exact (h.clients i).mono hevents (by rw [heffects]; exact List.Subset.refl _)
        fun d hd _ => heffects ▸ hd

/-! ## Calls -/

/-- The messages that are sent and waited for. -/
def Clients.start (c : Clients K S) (client : ℕ) (op : ClientOp K) (ms : Messages K) : Clients K S :=
  { c with
    calls := Function.update c.calls client (c.calls client + 1)
    record := c.record ++
      op.requests.zipIdx.map fun r => Mark.event (.call (client, c.calls client, r.2) r.1)
    sent := Function.update c.sent client fun rank => c.sent client rank ++
      (ms.1.filter fun m => m.1 = rank).map fun m => ⟨client, c.calls client, m.2⟩
    pc := Function.update c.pc client (.receiving (c.calls client) ms.1 ms.2) }

theorem Clients.call_eq_start {R : Ranks ks} {op : ClientOp K}
    (hg : c.Orderly R append (.call client op)) (h : c.call R client op = some c') :
    c.pc client = .idle ∧ ∃ ms, MessagesOf ks append op.requests client ms ∧
      c' = c.start client op ms := by
  unfold Clients.call at h
  split_ifs at h with hidle
  obtain ⟨hmild, hpack⟩ := hg
  have hms := @messagesOf _ _ ks append R client op hmild
  refine ⟨not_not.mp hidle, ?_⟩
  generalize op.messages ks (R.md client) = ms at h hpack hms
  obtain ⟨remote, own⟩ := ms
  obtain rfl := Option.some.inj h
  by_cases hall : ∀ m ∈ remote, m.2.packs ks m.1 = true
  · refine ⟨(remote, own), hms, ?_⟩
    have hfilter : (remote.filter fun m => m.2.packs ks m.1) = remote := List.filter_eq_self.mpr hall
    have hif : (remote.all fun m => m.2.packs ks m.1) = true := List.all_eq_true.mpr hall
    simp only [Clients.start, hfilter, hif, if_true]
  · have hnone := hpack.resolve_left hall
    refine ⟨([], own), ⟨List.nodup_nil, List.not_mem_nil, (fun _ hm => by cases hm), hms.own⟩, ?_⟩
    have hfilter : (remote.filter fun m => m.2.packs ks m.1) = [] :=
      List.filter_eq_nil_iff.mpr fun m hm => by simp [hnone m hm]
    have hif : (remote.all fun m => m.2.packs ks m.1) = false := by
      rw [List.all_eq_false]
      push Not at hall
      obtain ⟨m, hm, hp⟩ := hall
      exact ⟨m, hm, hp⟩
    simp [Clients.start, hfilter, hif]

omit [LinearOrder K] in
theorem length_filter_le_one {l : List (ℕ × ServerWork K)} (h : (l.map Prod.fst).Nodup) (rank : ℕ) :
    (l.filter fun m => m.1 = rank).length ≤ 1 := by
  have hcount := List.nodup_iff_count_le_one.mp h rank
  rw [List.count, List.countP_map, List.countP_eq_length_filter] at hcount
  have heq : (l.filter fun m => m.1 = rank) = l.filter ((fun x => x == rank) ∘ Prod.fst) :=
    List.filter_congr fun m _ => (beq_eq_decide m.1 rank).symm
  rwa [heq]

theorem Clients.places_start {op : ClientOp K} {ms : Messages K}
    (hplaces : c.places client rank = []) : (c.start client op ms).places client rank =
      (ms.1.filter fun m => m.1 = rank).map fun m => ⟨client, c.calls client, m.2⟩ := by
  obtain ⟨hs, hq⟩ := List.append_eq_nil_iff.mp hplaces
  simp only [Clients.places, Clients.start, Function.update_self, hs, hq, List.nil_append,
    List.append_nil]

theorem Clients.same_start {op : ClientOp K} {ms : Messages K} {i : ℕ} (hi : i ≠ client) :
    c.Same (c.start client op ms) i where
  pc := Function.update_of_ne hi _ _
  sent := Function.update_of_ne hi _ _
  places := by
    funext rank
    simp [Clients.places, Clients.start, hi]
  answer := rfl

theorem ClientsInv.call {R : Ranks ks} {op : ClientOp K} (h : ClientsInv ks append c)
    (hg : c.Orderly R append (.call client op)) (hs : c.call R client op = some c') :
    ClientsInv ks append c' := by
  obtain ⟨hidle, ms, hms, rfl⟩ := Clients.call_eq_start hg hs
  have hevents : events (c.start client op ms).record = events c.record ++
      op.requests.zipIdx.map fun r => .call (client, c.calls client, r.2) r.1 := by
    simp [Clients.start]
  have heffects : effects (c.start client op ms).record = effects c.record := by
    simp [Clients.start]
  have hids : (op.requests.zipIdx.map Prod.snd).Nodup := by
    rw [List.zipIdx_map_snd]
    exact List.nodup_range'
  -- no record of the call has a name that was used before
  have hnew : ∀ i op', .call (client, c.calls client, i) op' ∉ events c.record :=
    fun i op' hop => absurd (h.numbers _ _ _ _ hop) (lt_irrefl _)
  have hun : ∀ rank w, MessageOf ks append op.requests rank w →
      Unhandled ks append (c.start client op ms).record client rank (c.calls client) w := by
    intro rank w hw
    refine ⟨hw.server, fun r hr => ?_, fun r hr hmem => ?_, ?_, hw.length_le, hw.mild⟩
    · rw [hevents]
      exact List.mem_append_right _ (List.mem_map_of_mem (hw.sublist.subset hr))
    · rw [heffects] at hmem
      obtain ⟨d, hd, hid⟩ := List.mem_map.mp hmem
      have hcalled := h.timed.called d hd
      rw [hid] at hcalled
      exact hnew _ _ hcalled
    · exact hids.sublist (hw.sublist.map Prod.snd)
  have hpc : (c.start client op ms).pc client = .receiving (c.calls client) ms.1 ms.2 :=
    Function.update_self _ _ _
  refine h.client_step client ?_ rfl heffects ?_ ?_ (fun i hi => Clients.same_start hi) ?_
  · refine h.timed.calls _ _ ?_ fun r _ op' => hnew _ op'
    have hmap : (op.requests.zipIdx.map fun r => (client, c.calls client, r.2)) =
        (op.requests.zipIdx.map Prod.snd).map fun i => (client, c.calls client, i) := by
      rw [List.map_map]
      rfl
    rw [hmap]
    exact hids.map fun a b hab => (Prod.mk.inj (Prod.mk.inj hab).2).2
  · rw [hevents]
    exact List.subset_append_left _ _
  · intro client' call i op' hop
    show call < Function.update c.calls client (c.calls client + 1) client'
    rw [hevents, List.mem_append] at hop
    rw [Function.update_apply]
    rcases hop with hop | hop
    · have hlt := h.numbers _ _ _ _ hop
      split_ifs with he
      · exact (he ▸ hlt).trans (Nat.lt_succ_self _)
      · exact hlt
    · obtain ⟨r, -, heq⟩ := List.mem_map.mp hop
      obtain ⟨hid, -⟩ := Event.call.inj heq
      obtain ⟨hclient, hid⟩ := Prod.mk.inj hid
      rw [if_pos hclient.symm, ← (Prod.mk.inj hid).1]
      exact Nat.lt_succ_self _
  · rw [hpc]
    refine ⟨fun rank part hpart => ?_, fun rank reply hreply => ?_, fun rank => ?_, hms.nodup,
      hms.not_mem, fun w hw => hun client w (hms.own w hw)⟩
    · rw [Clients.places_start (h.idle hidle rank).1] at hpart
      obtain ⟨m, hm, rfl⟩ := List.mem_map.mp hpart
      obtain ⟨hmem, hrank⟩ := List.mem_filter.mp hm
      obtain rfl := of_decide_eq_true hrank
      refine ⟨rfl, hun _ _ (hms.remote m hmem), rfl, ?_, hmem⟩
      rintro rfl
      exact hms.not_mem (List.mem_map_of_mem hmem)
    · rw [show (c.start client op ms).answer client rank = [] from (h.idle hidle rank).2] at hreply
      cases hreply
    · rw [show (c.start client op ms).answer client rank = [] from (h.idle hidle rank).2,
        Clients.places_start (h.idle hidle rank).1, List.length_map]
      exact length_filter_le_one hms.nodup rank

/-! ## The network -/

/-- A message that arrives is the only one of the client for this rank. -/
theorem ClientsInv.arrive_cases (h : ClientsInv ks append c) (hs : c.arrive client rank = some c') :
    ∃ part, c.sent client rank = [part] ∧ c' = { c.queue rank part with
        sent := Function.update c.sent client (Function.update (c.sent client) rank []) } ∧
      c'.places = c.places := by
  unfold Clients.arrive at hs
  split at hs
  · cases hs
  rename_i part parts hsent
  obtain rfl := Option.some.inj hs
  have hlen := (h.clients client).single rank
  have hsource := ((h.clients client).pending rank part (by simp [Clients.places, hsent])).1
  have hplaces : c.places client rank = part :: parts ++
      (c.workQueue rank).filter fun part => part.source = client := by
    rw [Clients.places, hsent]
  rw [hplaces, List.length_append, List.length_cons] at hlen
  obtain rfl : parts = [] := List.length_eq_zero_iff.mp (by omega)
  have hqueue : ((c.workQueue rank).filter fun part => part.source = client) = [] :=
    List.length_eq_zero_iff.mp (by omega)
  refine ⟨part, hsent, rfl, funext fun i => funext fun r => ?_⟩
  by_cases hi : i = client
  · subst hi
    by_cases hr : r = rank
    · subst hr
      simp [Clients.places, Clients.queue, hsent, hqueue, hsource]
    · simp [Clients.places, Clients.queue, hr]
  · have hne : part.source ≠ i := fun he => hi (he.symm.trans hsource)
    by_cases hr : r = rank
    · subst hr
      simp [Clients.places, Clients.queue, hi, hne]
    · simp [Clients.places, Clients.queue, hi, hr]

theorem ClientsInv.arrive (h : ClientsInv ks append c) (hs : c.arrive client rank = some c') :
    ClientsInv ks append c' := by
  obtain ⟨part, -, rfl, hplaces⟩ := h.arrive_cases hs
  refine h.client_step client h.timed rfl rfl (List.Subset.refl _) h.numbers
    (fun i hi => ⟨rfl, Function.update_of_ne hi _ _, congrFun hplaces i, rfl⟩) ?_
  rw [hplaces]
  exact h.clients client

end MpiToShmem
