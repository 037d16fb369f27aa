import MpiToShmem.Mdhim.Calls

/-!
# Concurrent calls are calls on one map

1. `Due`: what holds of a request that is on its way or in a queue.
2. `CallsInv`: the servers agree with the map of the handled calls, and each client waits for the one
   request it has out.
3. `callsInv_step`: every step keeps it, as long as no client wakes up early.
4. `calls_linearizable`: the calls and returns of every such run are linearizable.
-/

namespace MpiToShmem

open Kit

variable {K S : Type}

/-- Where a client waits for a server. -/
def CallPc.await (client rank call : ℕ) : CallPc :=
  if client = rank then .getMsgSelf call else .receiving call rank

theorem CallPc.await_ne_idle {client rank call : ℕ} : CallPc.await client rank call ≠ .idle := by
  unfold CallPc.await
  split_ifs <;> simp

theorem CallPc.await_inj {client rank rank' call call' : ℕ}
    (h : CallPc.await client rank call = .await client rank' call') : rank = rank' ∧ call = call' := by
  unfold CallPc.await at h
  split_ifs at h with h₁ h₂ h₂
  · exact ⟨h₁.symm.trans h₂, CallPc.getMsgSelf.inj h⟩
  · obtain ⟨hcall, hrank⟩ := CallPc.receiving.inj h
    exact ⟨hrank, hcall⟩

variable [LinearOrder K] {c c' : Calls K S} {client rank : ℕ} {item : CallItem K}

variable (ks : Keyspace K S) (append : Bool)

/-- The map that the calls make which have taken effect. -/
def Calls.map (c : Calls K S) : K → Option Value :=
  (effects c.record).foldl (fun m d => (mapCall ks append m d.op).1) fun _ => none

/-- The client of a request waits for it, and it has not been handled. -/
structure Due (c : Calls K S) (rank : ℕ) (item : CallItem K) : Prop where
  dest : item.message.dest ks item.source = some rank
  called : .call (item.source, item.call) (item.source, item.message) ∈ events c.record
  unhandled : (item.source, item.call) ∉ (effects c.record).map Done.id
  pc : c.pc item.source = .await item.source rank item.call

structure CallsInv (c : Calls K S) : Prop where
  timed : Timed c.record
  sequential : Sequential (mapCall ks append) (fun _ => none) (effects c.record)
  agrees : ∀ rank key, ks.server key = some rank →
    (c.server rank).db.get key = c.map ks append key
  numbers : ∀ client call op, .call (client, call) op ∈ events c.record → call < c.calls client
  queued : ∀ rank, ∀ item ∈ c.workQueue rank, Due ks c rank item
  once : ∀ rank, ((c.workQueue rank).map CallItem.source).Nodup
  sent : ∀ client rank item, c.sent client = some (rank, item) →
    item.source = client ∧ Due ks c rank item ∧ client ∉ (c.workQueue rank).map CallItem.source
  response : ∀ client rank reply, c.response client = some (rank, reply) →
    ∃ call op, c.pc client = .receiving call rank ∧ ⟨(client, call), op, some reply⟩ ∈ effects c.record
  receiveMsg : ∀ client reply, c.receiveMsg client = some reply →
    ∃ call op, c.pc client = .getMsgSelf call ∧ ⟨(client, call), op, some reply⟩ ∈ effects c.record

variable {ks append}

theorem Due.congr (h : Due ks c rank item) (hpc : c'.pc item.source = c.pc item.source)
    (hevents : events c.record ⊆ events c'.record)
    (hunhandled : (item.source, item.call) ∉ (effects c'.record).map Done.id) :
    Due ks c' rank item :=
  ⟨h.dest, hevents h.called, hunhandled, hpc.trans h.pc⟩

theorem callsInv_init : CallsInv ks append (Calls.init : Calls K S) where
  timed := .start
  sequential := trivial
  agrees _ key _ := OrdMap.get_empty key
  numbers _ _ _ h := by cases h
  queued _ _ h := by cases h
  once _ := List.nodup_nil
  sent _ _ _ h := by cases h
  response _ _ _ h := by cases h
  receiveMsg _ _ h := by cases h

/-- A client between calls has no request out. -/
theorem CallsInv.not_mem_queue (h : CallsInv ks append c) (hidle : c.pc client = .idle) (rank : ℕ) :
    client ∉ (c.workQueue rank).map CallItem.source := by
  intro hmem
  obtain ⟨item, hitem, rfl⟩ := List.mem_map.mp hmem
  exact CallPc.await_ne_idle ((h.queued rank item hitem).pc.symm.trans hidle)

theorem CallsInv.sent_eq_none (h : CallsInv ks append c) (hidle : c.pc client = .idle) :
    c.sent client = none := by
  cases hsent : c.sent client with
  | none => rfl
  | some p =>
    obtain ⟨rfl, hdue, -⟩ := h.sent client p.1 p.2 hsent
    exact absurd (hdue.pc.symm.trans hidle) CallPc.await_ne_idle

theorem CallsInv.response_eq_none (h : CallsInv ks append c) (hidle : c.pc client = .idle) :
    c.response client = none := by
  cases hresponse : c.response client with
  | none => rfl
  | some p =>
    obtain ⟨call, op, hpc, -⟩ := h.response client p.1 p.2 hresponse
    rw [hidle] at hpc
    cases hpc

theorem CallsInv.receiveMsg_eq_none (h : CallsInv ks append c) (hidle : c.pc client = .idle) :
    c.receiveMsg client = none := by
  cases hmsg : c.receiveMsg client with
  | none => rfl
  | some reply =>
    obtain ⟨call, op, hpc, -⟩ := h.receiveMsg client reply hmsg
    rw [hidle] at hpc
    cases hpc

/-! ## Calls -/

theorem CallsInv.begin (h : CallsInv ks append c) (client : ℕ) (message : Request K) :
    CallsInv ks append (c.begin client message) := by
  have hevents : events (c.begin client message).record =
      events c.record ++ [.call (client, c.calls client) (client, message)] := events_append
  have heffects : effects (c.begin client message).record = effects c.record := by
    simp [Calls.begin]
  have hdue : ∀ rank item, Due ks c rank item → Due ks (c.begin client message) rank item :=
    fun rank item hd => hd.congr rfl (by rw [hevents]; exact List.subset_append_left _ _)
      (by rw [heffects]; exact hd.unhandled)
  constructor
  · exact h.timed.call _ fun op hop => absurd (h.numbers _ _ _ hop) (lt_irrefl _)
  · rw [heffects]
    exact h.sequential
  · rw [Calls.map, heffects]
    exact h.agrees
  · intro client' call op hop
    rw [hevents, List.mem_append] at hop
    show call < Function.update c.calls client (c.calls client + 1) client'
    rw [Function.update_apply]
    split_ifs with he
    · subst he
      rcases hop with hop | hop
      · exact (h.numbers _ _ _ hop).trans (Nat.lt_succ_self _)
      · obtain ⟨hid, -⟩ := Event.call.inj (List.mem_singleton.mp hop)
        rw [(Prod.mk.inj hid).2]
        exact Nat.lt_succ_self _
    · rcases hop with hop | hop
      · exact h.numbers _ _ _ hop
      · obtain ⟨hid, -⟩ := Event.call.inj (List.mem_singleton.mp hop)
        exact absurd (Prod.mk.inj hid).1 he
  · exact fun rank item hitem => hdue rank item (h.queued rank item hitem)
  · exact h.once
  · intro client' rank item hsent
    obtain ⟨hsource, hd, hmem⟩ := h.sent client' rank item hsent
    exact ⟨hsource, hdue rank item hd, hmem⟩
  · rw [heffects]
    exact h.response
  · rw [heffects]
    exact h.receiveMsg

/-- The call that has begun has not been handled. -/
theorem CallsInv.begin_unhandled (h : CallsInv ks append c) (client : ℕ) (message : Request K) :
    (client, c.calls client) ∉ (effects (c.begin client message).record).map Done.id := by
  rw [show effects (c.begin client message).record = effects c.record by simp [Calls.begin]]
  intro hmem
  obtain ⟨d, hd, hid⟩ := List.mem_map.mp hmem
  have hcalled := h.timed.called d hd
  rw [hid] at hcalled
  exact absurd (h.numbers _ _ _ hcalled) (lt_irrefl _)

/-! ## Queues -/

theorem Calls.mem_queue {item' : CallItem K} {rank' : ℕ} :
    item' ∈ (c.queue rank item).workQueue rank' ↔
      item' ∈ c.workQueue rank' ∨ rank' = rank ∧ item' = item := by
  by_cases hr : rank' = rank
  · subst hr
    simp [Calls.queue]
  · simp [Calls.queue, hr]

theorem Calls.source_mem_queue {client rank' : ℕ} :
    client ∈ ((c.queue rank item).workQueue rank').map CallItem.source ↔
      client ∈ (c.workQueue rank').map CallItem.source ∨ rank' = rank ∧ client = item.source := by
  by_cases hr : rank' = rank
  · subst hr
    simp [Calls.queue]
  · simp [Calls.queue, hr]

theorem Calls.nodup_queue (hnew : item.source ∉ (c.workQueue rank).map CallItem.source)
    (h : ∀ rank, ((c.workQueue rank).map CallItem.source).Nodup) (rank' : ℕ) :
    (((c.queue rank item).workQueue rank').map CallItem.source).Nodup := by
  by_cases hr : rank' = rank
  · subst hr
    have hmap : ((c.queue rank' item).workQueue rank').map CallItem.source =
        (c.workQueue rank').map CallItem.source ++ [item.source] := by simp [Calls.queue]
    rw [hmap]
    exact (h rank').append (List.nodup_singleton _) (List.disjoint_singleton.mpr hnew)
  · have hmap : (c.queue rank item).workQueue rank' = c.workQueue rank' := by simp [Calls.queue, hr]
    rw [hmap]
    exact h rank'

section Own

variable {call : ℕ} {message : Request K}

theorem await_of_idle (hidle : c.pc client = .idle) {pc : CallPc} {client' : ℕ}
    (hne : c.pc client' ≠ .idle) : Function.update c.pc client pc client' = c.pc client' :=
  Function.update_of_ne (fun he => hne (by rw [he, hidle])) _ _

/-- A request is added to the queue of its server by its client. -/
theorem CallsInv.queueOwn (h : CallsInv ks append c) (hidle : c.pc client = .idle)
    (hdest : message.dest ks client = some client)
    (hcalled : .call (client, call) (client, message) ∈ events c.record)
    (hunhandled : (client, call) ∉ (effects c.record).map Done.id) :
    CallsInv ks append
      { c.queue client ⟨client, call, message⟩ with
        pc := Function.update c.pc client (.getMsgSelf call) } := by
  have hdue : ∀ rank item, Due ks c rank item → Due ks
      { c.queue client ⟨client, call, message⟩ with
        pc := Function.update c.pc client (.getMsgSelf call) } rank item := fun rank item hd =>
    hd.congr (await_of_idle hidle (by rw [hd.pc]; exact CallPc.await_ne_idle)) (List.Subset.refl _)
      hd.unhandled
  refine ⟨h.timed, h.sequential, h.agrees, h.numbers, fun rank item hitem => ?_,
    Calls.nodup_queue (h.not_mem_queue hidle client) h.once, fun client' rank item hsent => ?_,
    fun client' rank reply hresponse => ?_, fun client' reply hmsg => ?_⟩
  · rcases Calls.mem_queue.mp hitem with hitem | ⟨rfl, rfl⟩
    · exact hdue rank item (h.queued rank item hitem)
    · exact ⟨hdest, hcalled, hunhandled, by simp [CallPc.await]⟩
  · obtain ⟨rfl, hd, hmem⟩ := h.sent client' rank item hsent
    refine ⟨rfl, hdue rank item hd, fun hm => ?_⟩
    rcases Calls.source_mem_queue.mp hm with hm | ⟨-, he⟩
    · exact hmem hm
    · have hpc := hd.pc
      rw [he, hidle] at hpc
      exact CallPc.await_ne_idle hpc.symm
  · obtain ⟨n, op, hpc, hd⟩ := h.response client' rank reply hresponse
    exact ⟨n, op, (await_of_idle hidle (by simp [hpc])).trans hpc, hd⟩
  · obtain ⟨n, op, hpc, hd⟩ := h.receiveMsg client' reply hmsg
    exact ⟨n, op, (await_of_idle hidle (by simp [hpc])).trans hpc, hd⟩

/-- A request is sent to its server. -/
theorem CallsInv.send (h : CallsInv ks append c) (hidle : c.pc client = .idle)
    (hdest : message.dest ks client = some rank) (hne : client ≠ rank)
    (hcalled : .call (client, call) (client, message) ∈ events c.record)
    (hunhandled : (client, call) ∉ (effects c.record).map Done.id) :
    CallsInv ks append
      { c with
        sent := Function.update c.sent client (some (rank, ⟨client, call, message⟩))
        pc := Function.update c.pc client (.receiving call rank) } := by
  have hdue : ∀ rank' item, Due ks c rank' item → Due ks
      { c with
        sent := Function.update c.sent client (some (rank, ⟨client, call, message⟩))
        pc := Function.update c.pc client (.receiving call rank) } rank' item := fun rank' item hd =>
    hd.congr (await_of_idle hidle (by rw [hd.pc]; exact CallPc.await_ne_idle)) (List.Subset.refl _)
      hd.unhandled
  refine ⟨h.timed, h.sequential, h.agrees, h.numbers,
    fun rank item hitem => hdue rank item (h.queued rank item hitem), h.once,
    fun client' rank' item hsent => ?_, fun client' rank' reply hresponse => ?_,
    fun client' reply hmsg => ?_⟩
  · by_cases hc : client' = client
    · subst hc
      have hsome := (Function.update_self client' _ c.sent).symm.trans hsent
      obtain ⟨rfl, rfl⟩ := Prod.mk.inj (Option.some.inj hsome)
      exact ⟨rfl, ⟨hdest, hcalled, hunhandled, by simp [CallPc.await, hne]⟩,
        h.not_mem_queue hidle rank⟩
    · obtain ⟨hsource, hd, hmem⟩ := h.sent client' rank' item
        ((Function.update_of_ne hc _ _).symm.trans hsent)
      exact ⟨hsource, hdue rank' item hd, hmem⟩
  · obtain ⟨n, op, hpc, hd⟩ := h.response client' rank' reply hresponse
    exact ⟨n, op, (await_of_idle hidle (by simp [hpc])).trans hpc, hd⟩
  · obtain ⟨n, op, hpc, hd⟩ := h.receiveMsg client' reply hmsg
    exact ⟨n, op, (await_of_idle hidle (by simp [hpc])).trans hpc, hd⟩

/-- A call without a server returns NULL. -/
theorem CallsInv.null (h : CallsInv ks append c) (hidle : c.pc client = .idle)
    (hdest : message.dest ks client = none)
    (hcalled : .call (client, call) (client, message) ∈ events c.record)
    (hunhandled : (client, call) ∉ (effects c.record).map Done.id) :
    CallsInv ks append
      ({ c with
        record := c.record ++ [Mark.effect ⟨(client, call), (client, message), none⟩] }.finish client
          call none) := by
  have hmap : mapCall ks append (c.map ks append) (client, message) = (c.map ks append, none) := by
    simp [mapCall, hdest]
  let d : Done (ℕ × ℕ) (ℕ × Request K) (Option (Reply K)) := ⟨(client, call), (client, message), none⟩
  let c₁ : Calls K S := { c with record := c.record ++ [Mark.effect d] }
  have hevents : events (c₁.finish client call none).record =
      events c.record ++ [.ret (client, call) none] := by
    simp [Calls.finish, c₁]
  have heffects : effects (c₁.finish client call none).record = effects c.record ++ [d] := by
    simp [Calls.finish, c₁]
  have hpc : ∀ client', (c₁.finish client call none).pc client' = c.pc client' := fun client' => by
    show Function.update c.pc client .idle client' = _
    rw [Function.update_apply]
    split_ifs with he
    · rw [he, hidle]
    · rfl
  have hdue : ∀ rank item, Due ks c rank item → Due ks (c₁.finish client call none) rank item := by
    intro rank item hd
    refine hd.congr (hpc _) (by rw [hevents]; exact List.subset_append_left _ _) ?_
    rw [heffects, List.map_append, List.mem_append]
    rintro (hm | hm)
    · exact hd.unhandled hm
    · have hsource : item.source = client := (Prod.mk.inj (List.mem_singleton.mp hm)).1
      have hpc' := hd.pc
      rw [hsource, hidle] at hpc'
      exact CallPc.await_ne_idle hpc'.symm
  show CallsInv ks append (c₁.finish client call none)
  constructor
  · have htimed : Timed (c.record ++ [Mark.effect d]) := h.timed.effect hcalled hunhandled
    exact htimed.ret (d := d) (by simp)
  · rw [heffects]
    exact explains_concat.mpr ⟨h.sequential, by
      show none = (mapCall ks append (c.map ks append) (client, message)).2
      rw [hmap]⟩
  · intro rank key hkey
    rw [Calls.map, heffects, List.foldl_append]
    show (c.server rank).db.get key = (mapCall ks append (c.map ks append) (client, message)).1 key
    rw [hmap]
    exact h.agrees rank key hkey
  · intro client' n op hop
    rw [hevents, List.mem_append] at hop
    exact h.numbers client' n op (hop.resolve_right (by simp))
  · exact fun rank item hitem => hdue rank item (h.queued rank item hitem)
  · exact h.once
  · intro client' rank item hsent
    obtain ⟨hsource, hd, hmem⟩ := h.sent client' rank item hsent
    exact ⟨hsource, hdue rank item hd, hmem⟩
  · intro client' rank reply hresponse
    obtain ⟨n, op, hpc', hd⟩ := h.response client' rank reply hresponse
    rw [hpc, heffects]
    exact ⟨n, op, hpc', List.mem_append_left _ hd⟩
  · intro client' reply hmsg
    obtain ⟨n, op, hpc', hd⟩ := h.receiveMsg client' reply hmsg
    rw [hpc, heffects]
    exact ⟨n, op, hpc', List.mem_append_left _ hd⟩

end Own

theorem CallsInv.call {message : Request K} (h : CallsInv ks append c)
    (hs : c.call ks client message = some c') : CallsInv ks append c' := by
  have hbegin := h.begin client message
  have hunhandled := h.begin_unhandled client message
  have hcalled : .call (client, c.calls client) (client, message) ∈
      events (c.begin client message).record := by
    simp [Calls.begin]
  obtain ⟨hidle, ⟨hdest, rfl⟩ | ⟨hdest, rfl⟩ | ⟨rank, hdest, hr, rfl⟩⟩ := Calls.call_cases hs
  · exact hbegin.null hidle hdest hcalled hunhandled
  · exact hbegin.queueOwn hidle hdest hcalled hunhandled
  · exact hbegin.send hidle hdest hr hcalled hunhandled

/-! ## Requests that arrive -/

theorem CallsInv.arrive (h : CallsInv ks append c) (hs : c.arrive client = some c') :
    CallsInv ks append c' := by
  obtain ⟨⟨rank, item⟩, hsent, rfl⟩ := Option.map_eq_some_iff.mp hs
  obtain ⟨rfl, hdue, hnew⟩ := h.sent client rank item hsent
  have hkeep : ∀ {rank' item'}, Due ks c rank' item' → Due ks { c.queue rank item with
      sent := Function.update c.sent item.source none } rank' item' := fun hd =>
    hd.congr rfl (List.Subset.refl _) hd.unhandled
  refine ⟨h.timed, h.sequential, h.agrees, h.numbers, fun rank' item' hitem => ?_,
    Calls.nodup_queue hnew h.once, fun client' rank' item' hsent' => ?_, h.response, h.receiveMsg⟩
  · rcases Calls.mem_queue.mp hitem with hitem | ⟨rfl, rfl⟩
    · exact hkeep (h.queued rank' item' hitem)
    · exact hkeep hdue
  · by_cases hc : client' = item.source
    · subst hc
      cases (Function.update_self item.source none c.sent).symm.trans hsent'
    · obtain ⟨hsource, hd, hmem⟩ := h.sent client' rank' item'
        ((Function.update_of_ne hc _ _).symm.trans hsent')
      refine ⟨hsource, hkeep hd, fun hm => ?_⟩
      rcases Calls.source_mem_queue.mp hm with hm | ⟨-, he⟩
      · exact hmem hm
      · exact hc he

/-! ## Requests that are handled -/

variable [LinearOrder S]

omit [LinearOrder S] in
/-- The requests of a queue that are left are those of other clients. -/
theorem CallsInv.source_ne {items : List (CallItem K)} (h : CallsInv ks append c)
    (hq : c.workQueue rank = item :: items) : ∀ item' ∈ items, item'.source ≠ item.source := by
  have honce := h.once rank
  rw [hq, List.map_cons, List.nodup_cons] at honce
  exact fun item' hitem he => honce.1 (he ▸ List.mem_map_of_mem hitem)

omit [LinearOrder S] in
/-- Another request that is due is of another client. -/
theorem CallsInv.other_source {items : List (CallItem K)} (h : CallsInv ks append c)
    (hq : c.workQueue rank = item :: items) {rank' : ℕ} {item' : CallItem K}
    (hd : Due ks c rank' item')
    (hitem : item' ∈ Function.update c.workQueue rank items rank' ∨
      c.sent item'.source = some (rank', item')) : item'.source ≠ item.source := by
  intro he
  have hdue : Due ks c rank item := h.queued rank item (by rw [hq]; exact List.mem_cons_self)
  have hpc := hd.pc
  rw [he, hdue.pc] at hpc
  obtain ⟨rfl, -⟩ := CallPc.await_inj hpc
  rcases hitem with hitem | hsent
  · rw [Function.update_self] at hitem
    exact h.source_ne hq item' hitem he
  · obtain ⟨-, -, hmem⟩ := h.sent item'.source rank item' hsent
    exact hmem (by rw [hq, he]; exact List.mem_cons_self)

/-- A request is handled; its response is still to be sent. -/
theorem CallsInv.handled {items : List (CallItem K)} {s : RangeServer K S} {reply : Reply K}
    (h : CallsInv ks append c) (hq : c.workQueue rank = item :: items)
    (hh : handle ks append (c.server rank) item.message = some (s, reply)) :
    CallsInv ks append
      { c with
        server := Function.update c.server rank s
        workQueue := Function.update c.workQueue rank items
        record := c.record ++
          [Mark.effect ⟨(item.source, item.call), (item.source, item.message), some reply⟩] } := by
  have hdue : Due ks c rank item := h.queued rank item (by rw [hq]; exact List.mem_cons_self)
  obtain ⟨hserver, -⟩ := Option.filter_eq_some_iff.mp hdue.dest
  have hreply : reply = mapReply (c.map ks append) item.message := by
    rw [handle_reply hh]
    exact mapReply_congr (h.agrees rank _ hserver)
  have hcall : mapCall ks append (c.map ks append) (item.source, item.message) =
      (mapNext append (c.map ks append) item.message, some reply) := by
    rw [mapCall, hdue.dest, hreply]
  let d : Done (ℕ × ℕ) (ℕ × Request K) (Option (Reply K)) :=
    ⟨(item.source, item.call), (item.source, item.message), some reply⟩
  have hevents : events (c.record ++ [Mark.effect d]) = events c.record := by simp
  have heffects : effects (c.record ++ [Mark.effect d]) = effects c.record ++ [d] := by simp
  have hkeep : ∀ {rank' item'}, Due ks c rank' item' →
      (item' ∈ Function.update c.workQueue rank items rank' ∨
        c.sent item'.source = some (rank', item')) →
      Due ks { c with
        server := Function.update c.server rank s
        workQueue := Function.update c.workQueue rank items
        record := c.record ++ [Mark.effect d] } rank' item' := by
    intro rank' item' hd hitem
    refine hd.congr rfl (by rw [hevents]; exact List.Subset.refl _) ?_
    rw [heffects, List.map_append, List.mem_append]
    rintro (hm | hm)
    · exact hd.unhandled hm
    · exact h.other_source hq hd hitem (Prod.mk.inj (List.mem_singleton.mp hm)).1
  have hsub : ∀ rank' : ℕ,
      (Function.update c.workQueue rank items rank').Sublist (c.workQueue rank') := by
    intro rank'
    by_cases hr : rank' = rank
    · subst hr
      rw [Function.update_self, hq]
      exact List.sublist_cons_self item items
    · rw [Function.update_of_ne hr]
  constructor
  · exact h.timed.effect hdue.called hdue.unhandled
  · rw [heffects]
    exact explains_concat.mpr ⟨h.sequential, by
      show some reply = (mapCall ks append (c.map ks append) (item.source, item.message)).2
      rw [hcall]⟩
  · intro r key hkey
    rw [Calls.map, heffects, List.foldl_append]
    show (Function.update c.server rank s r).db.get key =
      (mapCall ks append (c.map ks append) (item.source, item.message)).1 key
    rw [hcall]
    by_cases hr : r = rank
    · subst hr
      rw [Function.update_self, handle_db hh]
      exact mapNext_congr (h.agrees r _ hserver) (h.agrees r key hkey)
    · have hne : key ≠ item.message.key := by
        rintro rfl
        exact hr (Option.some.inj (hkey.symm.trans hserver))
      rw [Function.update_of_ne hr]
      exact (h.agrees r key hkey).trans (mapNext_of_ne hne).symm
  · rw [hevents]
    exact h.numbers
  · intro rank' item' hitem
    exact hkeep (h.queued rank' item' ((hsub rank').subset hitem)) (.inl hitem)
  · exact fun rank' => ((hsub rank').map _).nodup (h.once rank')
  · intro client rank' item' hsent
    obtain ⟨rfl, hd, hmem⟩ := h.sent client rank' item' hsent
    exact ⟨rfl, hkeep hd (.inr hsent), fun hm => hmem (((hsub rank').map _).subset hm)⟩
  · intro client rank' reply' hresponse
    obtain ⟨n, op, hpc, hd⟩ := h.response client rank' reply' hresponse
    rw [heffects]
    exact ⟨n, op, hpc, List.mem_append_left _ hd⟩
  · intro client reply' hmsg
    obtain ⟨n, op, hpc, hd⟩ := h.receiveMsg client reply' hmsg
    rw [heffects]
    exact ⟨n, op, hpc, List.mem_append_left _ hd⟩

omit [LinearOrder S] in
/-- The response to a request that has been handled is sent. -/
theorem CallsInv.respond {call : ℕ} {reply : Reply K} (h : CallsInv ks append c)
    (op : ℕ × Request K) (hpc : c.pc client = .await client rank call)
    (hd : ⟨(client, call), op, some reply⟩ ∈ effects c.record) :
    CallsInv ks append (c.respond ks rank client reply) := by
  unfold Calls.respond
  have hkeep : ∀ {response receiveMsg} {rank' item'}, Due ks c rank' item' →
      Due ks { c with response := response, receiveMsg := receiveMsg } rank' item' := fun hd =>
    hd.congr rfl (List.Subset.refl _) hd.unhandled
  split_ifs with hr hp
  · subst hr
    refine ⟨h.timed, h.sequential, h.agrees, h.numbers, fun r i hi => hkeep (h.queued r i hi),
      h.once, fun r i j hs => ?_, h.response, fun client' reply' hmsg => ?_⟩
    · obtain ⟨hsource, hdue, hmem⟩ := h.sent r i j hs
      exact ⟨hsource, hkeep hdue, hmem⟩
    · by_cases hc : client' = client
      · subst hc
        obtain rfl := Option.some.inj ((Function.update_self client' _ c.receiveMsg).symm.trans hmsg)
        exact ⟨call, op, by simpa [CallPc.await] using hpc, hd⟩
      · exact h.receiveMsg client' reply' ((Function.update_of_ne hc _ _).symm.trans hmsg)
  · refine ⟨h.timed, h.sequential, h.agrees, h.numbers, fun r i hi => hkeep (h.queued r i hi),
      h.once, fun r i j hs => ?_, fun client' rank' reply' hresponse => ?_, h.receiveMsg⟩
    · obtain ⟨hsource, hdue, hmem⟩ := h.sent r i j hs
      exact ⟨hsource, hkeep hdue, hmem⟩
    · by_cases hc : client' = client
      · subst hc
        have hsome := (Function.update_self client' _ c.response).symm.trans hresponse
        obtain ⟨rfl, rfl⟩ := Prod.mk.inj (Option.some.inj hsome)
        exact ⟨call, op, by simpa [CallPc.await, hr] using hpc, hd⟩
      · exact h.response client' rank' reply' ((Function.update_of_ne hc _ _).symm.trans hresponse)
  · exact h

theorem CallsInv.work (h : CallsInv ks append c) (hs : c.work ks append rank = some c') :
    CallsInv ks append c' := by
  obtain ⟨item, items, s, reply, hq, hh, rfl⟩ := Calls.work_eq_some.mp hs
  have hdue : Due ks c rank item := h.queued rank item (by rw [hq]; exact List.mem_cons_self)
  refine (h.handled hq hh).respond (item.source, item.message) hdue.pc ?_
  simp

/-! ## Calls that return -/

omit [LinearOrder S] in
/-- A client returns what the request that it waited for did. -/
theorem CallsInv.finish {call : ℕ} {op : ℕ × Request K} {result : Option (Reply K)}
    (h : CallsInv ks append c) (hpc : ∀ rank n, c.pc client = .await client rank n → n = call)
    (hresponse : c.response client = none) (hmsg : c.receiveMsg client = none)
    (hd : ⟨(client, call), op, result⟩ ∈ effects c.record) :
    CallsInv ks append (c.finish client call result) := by
  have hevents : events (c.finish client call result).record =
      events c.record ++ [.ret (client, call) result] := by simp [Calls.finish]
  have heffects : effects (c.finish client call result).record = effects c.record := by
    simp [Calls.finish]
  have hother : ∀ {client'}, client' ≠ client →
      (c.finish client call result).pc client' = c.pc client' := fun hne =>
    Function.update_of_ne hne _ _
  have hkeep : ∀ {rank' item'}, Due ks c rank' item' →
      item'.source ≠ client ∧ Due ks (c.finish client call result) rank' item' := by
    intro rank' item' hdue
    -- the request of the client has been handled
    have hne : item'.source ≠ client := by
      intro he
      have hcall := hpc rank' item'.call (he ▸ hdue.pc)
      exact hdue.unhandled (List.mem_map.mpr ⟨_, hd, by rw [he, hcall]⟩)
    refine ⟨hne, hdue.congr (hother hne) ?_ ?_⟩
    · rw [hevents]
      exact List.subset_append_left _ _
    · rw [heffects]
      exact hdue.unhandled
  constructor
  · exact h.timed.ret hd
  · rw [heffects]
    exact h.sequential
  · rw [Calls.map, heffects]
    exact h.agrees
  · intro client' n op' hop
    rw [hevents, List.mem_append] at hop
    exact h.numbers client' n op' (hop.resolve_right (by simp))
  · exact fun rank item hitem => (hkeep (h.queued rank item hitem)).2
  · exact h.once
  · intro client' rank' item' hsent
    obtain ⟨hsource, hdue, hmem⟩ := h.sent client' rank' item' hsent
    exact ⟨hsource, (hkeep hdue).2, hmem⟩
  · intro client' rank' reply hr
    obtain ⟨n, op', hpc', hd'⟩ := h.response client' rank' reply hr
    have hne : client' ≠ client := fun he => by
      rw [← he] at hresponse
      exact absurd (hresponse.symm.trans hr) (by simp)
    rw [heffects, hother hne]
    exact ⟨n, op', hpc', hd'⟩
  · intro client' reply hm
    obtain ⟨n, op', hpc', hd'⟩ := h.receiveMsg client' reply hm
    have hne : client' ≠ client := fun he => by
      rw [← he] at hmsg
      exact absurd (hmsg.symm.trans hm) (by simp)
    rw [heffects, hother hne]
    exact ⟨n, op', hpc', hd'⟩

omit [LinearOrder S] in
/-- Responses that are taken. -/
theorem CallsInv.forget {response : ℕ → Option (ℕ × Reply K)} {receiveMsg : ℕ → Option (Reply K)}
    (h : CallsInv ks append c) (hr : ∀ i p, response i = some p → c.response i = some p)
    (hm : ∀ i reply, receiveMsg i = some reply → c.receiveMsg i = some reply) :
    CallsInv ks append { c with response := response, receiveMsg := receiveMsg } where
  timed := h.timed
  sequential := h.sequential
  agrees := h.agrees
  numbers := h.numbers
  queued rank item hitem :=
    (h.queued rank item hitem).congr rfl (List.Subset.refl _) (h.queued rank item hitem).unhandled
  once := h.once
  sent i rank item hsent := by
    obtain ⟨hsource, hdue, hmem⟩ := h.sent i rank item hsent
    exact ⟨hsource, hdue.congr rfl (List.Subset.refl _) hdue.unhandled, hmem⟩
  response i rank reply hresponse := h.response i rank reply (hr i _ hresponse)
  receiveMsg i reply hmsg := h.receiveMsg i reply (hm i _ hmsg)

theorem some_of_update_none {α : Type} {f : ℕ → Option α} {i j : ℕ} {x : α}
    (h : Function.update f i none j = some x) : f j = some x := by
  rw [Function.update_apply] at h
  split_ifs at h
  exact h

omit [LinearOrder S] in
theorem CallsInv.ret (h : CallsInv ks append c) (hg : c.OnTime (.ret client))
    (hs : c.ret client = some c') : CallsInv ks append c' := by
  rcases Calls.ret_eq_some.mp hs with ⟨call, rank, reply, hpc, hresponse, rfl⟩ | ⟨call, hpc, rfl⟩
  · obtain ⟨n, op, hpc', hd⟩ := h.response client rank reply hresponse
    obtain ⟨rfl, -⟩ := CallPc.receiving.inj (hpc.symm.trans hpc')
    have hmsg : c.receiveMsg client = none := Option.eq_none_iff_forall_ne_some.mpr fun reply hm => by
      obtain ⟨m, op', hpc'', -⟩ := h.receiveMsg client reply hm
      cases hpc.symm.trans hpc''
    refine (h.forget (fun _ _ => some_of_update_none) fun _ _ => id).finish (fun rank' m hm => ?_)
      (Function.update_self _ _ _) hmsg hd
    unfold CallPc.await at hm
    split_ifs at hm
    · cases hpc.symm.trans hm
    · exact (CallPc.receiving.inj (hpc.symm.trans hm)).1.symm
  · obtain ⟨reply, hmsg⟩ := Option.ne_none_iff_exists'.mp (hg call hpc)
    obtain ⟨n, op, hpc', hd⟩ := h.receiveMsg client reply hmsg
    obtain rfl := CallPc.getMsgSelf.inj (hpc.symm.trans hpc')
    have hresponse : c.response client = none := Option.eq_none_iff_forall_ne_some.mpr fun p hr => by
      obtain ⟨m, op', hpc'', -⟩ := h.response client p.1 p.2 hr
      cases hpc.symm.trans hpc''
    rw [hmsg]
    refine (h.forget (fun _ _ => id) fun _ _ => some_of_update_none).finish (fun rank' m hm => ?_)
      hresponse (Function.update_self _ _ _) hd
    unfold CallPc.await at hm
    split_ifs at hm
    · exact (CallPc.getMsgSelf.inj (hpc.symm.trans hm)).symm
    · cases hpc.symm.trans hm

/-! ## Runs -/

theorem callsInv_step (c : Calls K S) (a : CallsLabel K) (c' : Calls K S) (h : CallsInv ks append c)
    (hg : c.OnTime a) (hs : callsStep ks append c a = some c') : CallsInv ks append c' := by
  cases a with
  | call client message => exact h.call hs
  | arrive client => exact h.arrive hs
  | work rank => exact h.work hs
  | ret client => exact h.ret hg hs

/-- In every run of any number of clients, with their puts, gets and deletes in any order and any
interleaving, the calls and their returns are linearizable: they could have been made one after the
other on one map. -/
theorem calls_linearizable (ks : Keyspace K S) (append : Bool) {ls : List (CallsLabel K)}
    (hg : Meets (callsStep ks append) Calls.OnTime .init ls)
    (hrun : exec (callsStep ks append) .init ls = some c) :
    Linearizable (mapCall ks append) (fun _ => none) (events c.record) := by
  have h := exec_inv_meets callsInv_step callsInv_init hg hrun
  exact ⟨effects c.record, h.timed.linearization h.sequential⟩

/-- Two clients at one key, and a get of a key that is not there. -/
theorem calls_linearizable_two_clients :
    let o : IntOptions := ⟨⟨.int, 1, 10, by decide, by decide, by decide⟩, Or.inl rfl⟩
    ∃ md, mdhimInit o.toMdhimOptions 2 0 = some md ∧
      ∃ c : Calls (IntKey o) ℕ, exec (callsStep (intKeyspace (o := o) md) true) .init
          [.call 0 (.put 5 [1]), .call 1 (.put 5 [7]), .arrive 1, .work 0, .ret 0, .call 0 (.get 5),
            .work 0, .work 0, .ret 1, .call 1 (.get 12), .work 1, .ret 1, .ret 0] = some c ∧
        .ret (0, 1) (some (.getrm ⟨mdhimSuccess, some 5, some [1, 7]⟩)) ∈ events c.record ∧
        Linearizable (mapCall (intKeyspace (o := o) md) true) (fun _ => none) (events c.record) := by
  intro o
  let md : Mdhim := ⟨o.toMdhimOptions, 0, 2, getNumRangeServers o.toMdhimOptions 2,
    rangesrvsOf o.toMdhimOptions 2, rangesrvMaster (rangesrvsOf o.toMdhimOptions 2)⟩
  refine ⟨md, mdhimInit_eq (by decide) 0, ?_⟩
  have hrun : (exec (callsStep (intKeyspace (o := o) md) true) (.init : Calls (IntKey o) ℕ)
      [.call 0 (.put 5 [1]), .call 1 (.put 5 [7]), .arrive 1, .work 0, .ret 0, .call 0 (.get 5),
        .work 0, .work 0, .ret 1, .call 1 (.get 12), .work 1, .ret 1, .ret 0]).any (fun c =>
          .ret (0, 1) (some (.getrm ⟨mdhimSuccess, some 5, some [1, 7]⟩)) ∈ events c.record) = true := by
    decide
  obtain ⟨c, hc, hret⟩ := (Option.any_eq_true _ _).mp hrun
  exact ⟨c, hc, of_decide_eq_true hret, calls_linearizable _ true (by decide) hc⟩

end MpiToShmem
