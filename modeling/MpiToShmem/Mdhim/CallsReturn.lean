import MpiToShmem.Mdhim.CallsLinear
import MpiToShmem.Kit.Inevitable

/-!
# Every call returns

A client that waits has its request on the way, in the queue of its server, or a response, unless the
response was too long to be sent. So without new calls there is always a step to take until no client
waits for a response that can come, and every step brings one of the requests further.

1. `Stage`: how far a request is.
2. `CallsLive.step`: the steps keep it, and without new calls `weight` gets smaller.
3. `calls_return`: every call returns, in every order of the steps.
-/

namespace MpiToShmem

open Kit

variable {K S : Type} [LinearOrder K] {c c' : Calls K S} {client rank n : ℕ}

section

variable (ks : Keyspace K S) (append : Bool)

/-- How far the request is that a client waits for. -/
inductive Stage (c : Calls K S) (client rank n : ℕ) : Prop
  | sent (item : CallItem K) (h : c.sent client = some (rank, item))
  | queued (h : client ∈ (c.workQueue rank).map CallItem.source)
  | answeredSelf (hown : client = rank) (h : c.receiveMsg client ≠ none)
  | answered (reply : Reply K) (hne : client ≠ rank) (h : c.response client = some (rank, reply))
  | lost (op : ℕ × Request K) (reply : Reply K) (hne : client ≠ rank)
    (hd : ⟨(client, n), op, some reply⟩ ∈ effects c.record) (h : reply.packs ks rank = false)

/-- The clients `U` may have called. -/
structure CallsLive (U : Finset ℕ) (c : Calls K S) : Prop extends CallsInv ks append c where
  stage : ∀ client, c.pc client ≠ .idle →
    ∃ rank n, c.pc client = .await client rank n ∧ Stage ks c client rank n
  clients : ∀ client ∉ U, c.pc client = .idle

/-- No client waits, but for those whose response was too long to be sent. -/
def Calls.Rests (c : Calls K S) : Prop :=
  ∀ client, c.pc client ≠ .idle → ∃ n rank op reply, c.pc client = .receiving n rank ∧
    ⟨(client, n), op, some reply⟩ ∈ effects c.record ∧ reply.packs ks rank = false

variable [LinearOrder S]

/-- The next value that a worker is to store is longer than an `int` can say. -/
def Calls.Overflows (c : Calls K S) : Prop :=
  ∃ rank, ∃ item ∈ (c.workQueue rank).head?, handle ks append (c.server rank) item.message = none

/-- A step without a new call. -/
def Calls.Advances (c c' : Calls K S) : Prop :=
  ∃ a, (∀ client message, a ≠ .call client message) ∧ c.OnTime a ∧ callsStep ks append c a = some c'

end

variable {ks : Keyspace K S} {append : Bool} {U : Finset ℕ}

theorem callsLive_init : CallsLive ks append ∅ (Calls.init : Calls K S) where
  toCallsInv := callsInv_init
  stage _ h := absurd rfl h
  clients _ _ := rfl

/-! ## Stages -/

/-- What a request is at does not depend on the other clients. -/
theorem Stage.congr (h : Stage ks c client rank n) (hsent : c'.sent client = c.sent client)
    (hqueue : client ∈ (c.workQueue rank).map CallItem.source →
      client ∈ (c'.workQueue rank).map CallItem.source)
    (hmsg : c'.receiveMsg client = c.receiveMsg client)
    (hresponse : c'.response client = c.response client)
    (heffects : effects c.record ⊆ effects c'.record) : Stage ks c' client rank n := by
  cases h with
  | sent item h => exact .sent item (hsent.trans h)
  | queued h => exact .queued (hqueue h)
  | answeredSelf hown h => exact .answeredSelf hown (by rwa [hmsg])
  | answered reply hne h => exact .answered reply hne (hresponse.trans h)
  | lost op reply hne hd h => exact .lost op reply hne (heffects hd) h

/-- A response is sent, or is too long. -/
theorem Calls.stage_respond (op : ℕ × Request K) {reply : Reply K}
    (hd : ⟨(client, n), op, some reply⟩ ∈ effects c.record) :
    Stage ks (c.respond ks rank client reply) client rank n := by
  unfold Calls.respond
  split_ifs with hr hp
  · subst hr
    exact .answeredSelf rfl (by simp)
  · exact .answered reply hr (Function.update_self _ _ _)
  · exact .lost op reply hr hd (by simpa using hp)

@[simp] theorem Calls.respond_pc {reply : Reply K} : (c.respond ks rank client reply).pc = c.pc := by
  unfold Calls.respond
  split_ifs <;> rfl

@[simp] theorem Calls.respond_sent {reply : Reply K} :
    (c.respond ks rank client reply).sent = c.sent := by
  unfold Calls.respond
  split_ifs <;> rfl

@[simp] theorem Calls.respond_workQueue {reply : Reply K} :
    (c.respond ks rank client reply).workQueue = c.workQueue := by
  unfold Calls.respond
  split_ifs <;> rfl

@[simp] theorem Calls.respond_record {reply : Reply K} :
    (c.respond ks rank client reply).record = c.record := by
  unfold Calls.respond
  split_ifs <;> rfl

theorem Calls.respond_receiveMsg {reply : Reply K} {client' : ℕ} (hne : client' ≠ client) :
    (c.respond ks rank client reply).receiveMsg client' = c.receiveMsg client' := by
  unfold Calls.respond
  split_ifs with hr
  · exact Function.update_of_ne (hr ▸ hne) _ _
  · rfl
  · rfl

theorem Calls.respond_response {reply : Reply K} {client' : ℕ} (hne : client' ≠ client) :
    (c.respond ks rank client reply).response client' = c.response client' := by
  unfold Calls.respond
  split_ifs
  · rfl
  · exact Function.update_of_ne hne _ _
  · rfl

/-! ## Steps -/

theorem CallsLive.call {message : Request K} (h : CallsLive ks append U c)
    (hs : c.call ks client message = some c') : CallsLive ks append (insert client U) c' := by
  obtain ⟨hidle, hcases⟩ := Calls.call_cases hs
  have hother : ∀ {pc : CallPc} {client' : ℕ}, client' ≠ client →
      Function.update c.pc client pc client' = c.pc client' := fun hne => Function.update_of_ne hne _ _
  refine ⟨h.toCallsInv.call hs, fun client' hpc => ?_, fun client' hu => ?_⟩
  · by_cases hc : client' = client
    · subst hc
      rcases hcases with ⟨-, rfl⟩ | ⟨-, rfl⟩ | ⟨rank, -, hne, rfl⟩
      · exact absurd (Function.update_self _ _ _) hpc
      · exact ⟨client', c.calls client', by simp [CallPc.await],
          .queued (Calls.source_mem_queue.mpr (.inr ⟨rfl, rfl⟩))⟩
      · exact ⟨rank, c.calls client', by simp [CallPc.await, hne],
          .sent _ (Function.update_self _ _ _)⟩
    · rcases hcases with ⟨-, rfl⟩ | ⟨-, rfl⟩ | ⟨rank, -, hne, rfl⟩
      · obtain ⟨r, n, hawait, hstage⟩ := h.stage client' (hother hc ▸ hpc)
        refine ⟨r, n, (hother hc).trans hawait, hstage.congr rfl id rfl rfl ?_⟩
        simp [Calls.begin, Calls.finish]
      · obtain ⟨r, n, hawait, hstage⟩ := h.stage client' (hother hc ▸ hpc)
        refine ⟨r, n, (hother hc).trans hawait,
          hstage.congr rfl (fun hm => Calls.source_mem_queue.mpr (.inl hm)) rfl rfl ?_⟩
        simp [Calls.begin, Calls.queue]
      · obtain ⟨r, n, hawait, hstage⟩ := h.stage client' (hother hc ▸ hpc)
        refine ⟨r, n, (hother hc).trans hawait,
          hstage.congr (Function.update_of_ne hc _ _) id rfl rfl ?_⟩
        simp [Calls.begin]
  · have hne : client' ≠ client := fun he => hu (he ▸ Finset.mem_insert_self _ _)
    have hpc := h.clients client' fun hm => hu (Finset.mem_insert_of_mem hm)
    rcases hcases with ⟨-, rfl⟩ | ⟨-, rfl⟩ | ⟨rank, -, -, rfl⟩
    · exact (hother hne).trans hpc
    · exact (hother hne).trans hpc
    · exact (hother hne).trans hpc

theorem CallsLive.arrive (h : CallsLive ks append U c) (hs : c.arrive client = some c') :
    CallsLive ks append U c' := by
  have hinv := h.toCallsInv.arrive hs
  obtain ⟨⟨rank, item⟩, hsent, rfl⟩ := Option.map_eq_some_iff.mp hs
  obtain ⟨rfl, hdue, -⟩ := h.sent client rank item hsent
  refine ⟨hinv, fun client' hpc => ?_, h.clients⟩
  by_cases hc : client' = item.source
  · subst hc
    exact ⟨rank, item.call, hdue.pc, .queued (Calls.source_mem_queue.mpr (.inr ⟨rfl, rfl⟩))⟩
  · obtain ⟨r, n, hawait, hstage⟩ := h.stage client' hpc
    exact ⟨r, n, hawait, hstage.congr (Function.update_of_ne hc _ _)
      (fun hm => Calls.source_mem_queue.mpr (.inl hm)) rfl rfl (List.Subset.refl _)⟩

theorem CallsLive.ret (h : CallsLive ks append U c) (hg : c.OnTime (.ret client))
    (hs : c.ret client = some c') : CallsLive ks append U c' := by
  have hinv := h.toCallsInv.ret hg hs
  have hother : ∀ {client' : ℕ}, Function.update c.pc client .idle client' ≠ .idle →
      client' ≠ client ∧ c.pc client' ≠ .idle ∧
        Function.update c.pc client .idle client' = c.pc client' := by
    intro client' hpc
    have hne : client' ≠ client := fun he => hpc (he ▸ Function.update_self _ _ _)
    have hsame := Function.update_of_ne hne CallPc.idle c.pc
    exact ⟨hne, hsame ▸ hpc, hsame⟩
  have hidle : ∀ client' ∉ U, Function.update c.pc client .idle client' = .idle := fun client' hu => by
    rw [Function.update_apply, h.clients client' hu, ite_self]
  rcases Calls.ret_eq_some.mp hs with ⟨m, rank, reply, -, -, rfl⟩ | ⟨m, -, rfl⟩
  · refine ⟨hinv, fun client' hpc => ?_, hidle⟩
    obtain ⟨hne, hpc', hsame⟩ := hother hpc
    obtain ⟨r, n, hawait, hstage⟩ := h.stage client' hpc'
    refine ⟨r, n, hsame.trans hawait, hstage.congr rfl id rfl (Function.update_of_ne hne _ _) ?_⟩
    simp [Calls.finish]
  · refine ⟨hinv, fun client' hpc => ?_, hidle⟩
    obtain ⟨hne, hpc', hsame⟩ := hother hpc
    obtain ⟨r, n, hawait, hstage⟩ := h.stage client' hpc'
    refine ⟨r, n, hsame.trans hawait, hstage.congr rfl id (Function.update_of_ne hne _ _) rfl ?_⟩
    simp [Calls.finish]

variable [LinearOrder S]

theorem CallsLive.work (h : CallsLive ks append U c) (hs : c.work ks append rank = some c') :
    CallsLive ks append U c' := by
  have hinv := h.toCallsInv.work hs
  obtain ⟨item, items, s, reply, hq, hh, rfl⟩ := Calls.work_eq_some.mp hs
  have hdue : Due ks c rank item := h.queued rank item (by rw [hq]; exact List.mem_cons_self)
  refine ⟨hinv, fun client' hpc => ?_, by rw [Calls.respond_pc]; exact h.clients⟩
  rw [Calls.respond_pc] at hpc ⊢
  by_cases hc : client' = item.source
  · subst hc
    refine ⟨rank, item.call, hdue.pc, Calls.stage_respond (item.source, item.message) ?_⟩
    simp
  · obtain ⟨r, n, hawait, hstage⟩ := h.stage client' hpc
    refine ⟨r, n, hawait, hstage.congr (by simp) (fun hm => ?_) (Calls.respond_receiveMsg hc)
      (Calls.respond_response hc) (by simp)⟩
    rw [Calls.respond_workQueue]
    dsimp only
    by_cases hr : r = rank
    · subst hr
      rw [hq, List.map_cons, List.mem_cons] at hm
      rw [Function.update_self]
      exact hm.resolve_left hc
    · rwa [Function.update_of_ne hr]

/-! ## What is left to do -/

/-- The rank of the server that a client waits for. -/
def CallPc.server (client : ℕ) : CallPc → ℕ
  | .idle => client
  | .receiving _ rank => rank
  | .getMsgSelf _ => client

theorem CallPc.server_await : (CallPc.await client rank n).server client = rank := by
  unfold CallPc.await
  split_ifs with h
  · exact h
  · rfl

/-- The steps that are left for the request of a client, at most. -/
def Calls.weight (c : Calls K S) (client : ℕ) : ℕ :=
  3 * (c.sent client).toList.length +
    2 * ((c.workQueue ((c.pc client).server client)).map CallItem.source).count client +
    ((c.response client).toList.length + (c.receiveMsg client).toList.length)

omit [LinearOrder S] in
theorem CallsInv.weight_of_idle (h : CallsInv ks append c) (hidle : c.pc client = .idle) :
    c.weight client = 0 := by
  unfold Calls.weight
  rw [h.sent_eq_none hidle, h.response_eq_none hidle, h.receiveMsg_eq_none hidle,
    List.count_eq_zero_of_not_mem (h.not_mem_queue hidle _)]
  rfl

omit [LinearOrder S] in
theorem Calls.count_queue {item : CallItem K} {client rank' : ℕ} :
    (((c.queue rank item).workQueue rank').map CallItem.source).count client =
      ((c.workQueue rank').map CallItem.source).count client +
        if rank' = rank ∧ item.source = client then 1 else 0 := by
  by_cases hr : rank' = rank
  · subst hr
    simp [Calls.queue, List.count_singleton]
  · simp [Calls.queue, hr]

/-- One request is further. -/
def Calls.Fewer (c' c : Calls K S) : Prop :=
  ∃ i, c.pc i ≠ .idle ∧ c'.weight i < c.weight i ∧ ∀ j, j ≠ i → c'.weight j = c.weight j

omit [LinearOrder S] in
theorem CallsInv.arrive_less (h : CallsInv ks append c) (hs : c.arrive client = some c') :
    Calls.Fewer c' c := by
  obtain ⟨⟨rank, item⟩, hsent, rfl⟩ := Option.map_eq_some_iff.mp hs
  obtain ⟨rfl, hdue, -⟩ := h.sent client rank item hsent
  have hrank : (c.pc item.source).server item.source = rank := by rw [hdue.pc, CallPc.server_await]
  refine ⟨item.source, fun he => CallPc.await_ne_idle (hdue.pc.symm.trans he), ?_, fun j hj => ?_⟩
  · show 3 * (Function.update c.sent item.source none item.source).toList.length +
      2 * List.count _ (((c.queue rank item).workQueue ((c.pc item.source).server _)).map _) + _ < _
    unfold Calls.weight
    rw [Calls.count_queue, hrank, Function.update_self, hsent]
    simp [Calls.queue]
    omega
  · show 3 * (Function.update c.sent item.source none j).toList.length +
      2 * List.count _ (((c.queue rank item).workQueue ((c.pc j).server _)).map _) + _ = _
    rw [Calls.count_queue, Function.update_of_ne hj, if_neg fun he => hj he.2.symm]
    rfl

omit [LinearOrder S] in
theorem Calls.respond_length {reply : Reply K} :
    ((c.respond ks rank client reply).response client).toList.length +
        ((c.respond ks rank client reply).receiveMsg client).toList.length ≤
      (c.response client).toList.length + (c.receiveMsg client).toList.length + 1 := by
  unfold Calls.respond
  split_ifs with hr
  · subst hr
    dsimp only
    rw [Function.update_self, Option.toList_some, List.length_singleton]
    omega
  · dsimp only
    rw [Function.update_self, Option.toList_some, List.length_singleton]
    omega
  · omega

theorem CallsInv.work_less (h : CallsInv ks append c) (hs : c.work ks append rank = some c') :
    Calls.Fewer c' c := by
  obtain ⟨item, items, s, reply, hq, hh, rfl⟩ := Calls.work_eq_some.mp hs
  have hdue : Due ks c rank item := h.queued rank item (by rw [hq]; exact List.mem_cons_self)
  have hserver : (c.pc item.source).server item.source = rank := by
    rw [hdue.pc, CallPc.server_await]
  refine ⟨item.source, fun he => CallPc.await_ne_idle (hdue.pc.symm.trans he), ?_, fun j hj => ?_⟩
  · unfold Calls.weight
    rw [Calls.respond_pc, Calls.respond_sent, Calls.respond_workQueue]
    refine lt_of_le_of_lt (Nat.add_le_add_left Calls.respond_length _) ?_
    dsimp only
    rw [hserver, Function.update_self, hq, List.map_cons, List.count_cons_self]
    omega
  · unfold Calls.weight
    rw [Calls.respond_pc, Calls.respond_sent, Calls.respond_workQueue, Calls.respond_receiveMsg hj,
      Calls.respond_response hj]
    dsimp only
    by_cases hr : (c.pc j).server j = rank
    · rw [hr, Function.update_self, hq, List.map_cons, List.count_cons_of_ne hj.symm]
    · rw [Function.update_of_ne hr]

omit [LinearOrder S] in
theorem CallsInv.ret_less (h : CallsInv ks append c) (hg : c.OnTime (.ret client))
    (hs : c.ret client = some c') : Calls.Fewer c' c := by
  have hinv := h.ret hg hs
  rcases Calls.ret_eq_some.mp hs with ⟨m, rank, reply, hpc, hresponse, rfl⟩ | ⟨m, hpc, rfl⟩
  · refine ⟨client, by simp [hpc], ?_, fun j hj => ?_⟩
    · rw [hinv.weight_of_idle (Function.update_self _ _ _)]
      unfold Calls.weight
      rw [hresponse, Option.toList_some, List.length_singleton]
      omega
    · simp [Calls.weight, Calls.finish, hj]
  · obtain ⟨reply, hmsg⟩ := Option.ne_none_iff_exists'.mp (hg m hpc)
    refine ⟨client, by simp [hpc], ?_, fun j hj => ?_⟩
    · rw [hinv.weight_of_idle (Function.update_self _ _ _)]
      unfold Calls.weight
      rw [hmsg, Option.toList_some, List.length_singleton]
      omega
    · simp [Calls.weight, Calls.finish, hj]

/-! ## Returning -/

theorem callsLive_advances (h : CallsLive ks append U c) (hs : c.Advances ks append c') :
    CallsLive ks append U c' ∧ ∑ i ∈ U, c'.weight i < ∑ i ∈ U, c.weight i := by
  obtain ⟨a, hcall, hg, hs⟩ := hs
  have hstep : CallsLive ks append U c' ∧ Calls.Fewer c' c := by
    cases a with
    | call client message => exact absurd rfl (hcall client message)
    | arrive client => exact ⟨h.arrive hs, h.toCallsInv.arrive_less hs⟩
    | work rank => exact ⟨h.work hs, h.toCallsInv.work_less hs⟩
    | ret client => exact ⟨h.ret hg hs, h.toCallsInv.ret_less hg hs⟩
  obtain ⟨hlive, i, hi, hless, hother⟩ := hstep
  have hmem : i ∈ U := by_contra fun hu => hi (h.clients i hu)
  refine ⟨hlive, Finset.sum_lt_sum (fun j _ => ?_) ⟨i, hmem, hless⟩⟩
  by_cases hj : j = i
  · subst hj
    exact hless.le
  · exact (hother j hj).le

/-- As long as a client waits for a response that can come, there is a step to take. -/
theorem CallsLive.exists_step (h : CallsLive ks append U c) :
    (c.Rests ks ∨ c.Overflows ks append) ∨ ∃ c', c.Advances ks append c' := by
  by_contra hno
  push Not at hno
  obtain ⟨⟨hrests, hfits⟩, hstuck⟩ := hno
  refine hrests fun client hpc => ?_
  obtain ⟨rank, n, hawait, hstage⟩ := h.stage client hpc
  have hstuck' : ∀ a c', (∀ client message, a ≠ .call client message) → c.OnTime a →
      callsStep ks append c a = some c' → False := fun a c' hcall hg hs => hstuck c' ⟨a, hcall, hg, hs⟩
  cases hstage with
  | sent item hsent =>
    exact (hstuck' (.arrive client) _ (by simp) trivial (congrArg (Option.map _) hsent)).elim
  | queued hqueued =>
    cases hq : c.workQueue rank with
    | nil =>
      rw [hq] at hqueued
      cases hqueued
    | cons item items =>
      have hhandle : handle ks append (c.server rank) item.message ≠ none := fun hnone =>
        hfits ⟨rank, item, by rw [hq]; rfl, hnone⟩
      obtain ⟨⟨s, reply⟩, hh⟩ := Option.ne_none_iff_exists'.mp hhandle
      exact (hstuck' (.work rank) _ (by simp) trivial
        (Calls.work_eq_some.mpr ⟨item, items, s, reply, hq, hh, rfl⟩)).elim
  | answeredSelf hown hmsg =>
    have hself : c.pc client = .getMsgSelf n := by
      rw [hawait, CallPc.await, if_pos hown]
    exact (hstuck' (.ret client) _ (by simp) (fun _ _ => hmsg)
      (Calls.ret_eq_some.mpr (.inr ⟨n, hself, rfl⟩))).elim
  | answered reply hne hresponse =>
    have hreceiving : c.pc client = .receiving n rank := by
      rw [hawait, CallPc.await, if_neg hne]
    refine (hstuck' (.ret client) _ (by simp) (fun m hm => ?_)
      (Calls.ret_eq_some.mpr (.inl ⟨n, rank, reply, hreceiving, hresponse, rfl⟩))).elim
    cases hreceiving.symm.trans hm
  | lost op reply hne hd hlost =>
    exact ⟨n, rank, op, reply, by rw [hawait, CallPc.await, if_neg hne], hd, hlost⟩

/-- After every run, in whatever order the steps are taken, all calls return unless new ones are made
for ever: a client is left waiting only where the response to it is too long to be sent, or where a
worker gets to a value that is longer than an `int` can say. -/
theorem calls_return (ks : Keyspace K S) (append : Bool) {ls : List (CallsLabel K)}
    (hg : Meets (callsStep ks append) Calls.OnTime .init ls)
    (hrun : exec (callsStep ks append) .init ls = some c) :
    Inevitable (Calls.Advances ks append) (fun c => c.Rests ks ∨ c.Overflows ks append) c := by
  have hstep : ∀ (c : Calls K S) a c', (∃ U, CallsLive ks append U c) → c.OnTime a →
      callsStep ks append c a = some c' → ∃ U, CallsLive ks append U c' := by
    rintro c a c' ⟨U, h⟩ hg hs
    cases a with
    | call client message => exact ⟨_, h.call hs⟩
    | arrive client => exact ⟨U, h.arrive hs⟩
    | work rank => exact ⟨U, h.work hs⟩
    | ret client => exact ⟨U, h.ret hg hs⟩
  obtain ⟨U, h⟩ := exec_inv_meets hstep ⟨∅, callsLive_init⟩ hg hrun
  exact inevitable_of_wellFounded (I := CallsLive ks append U) Nat.lt_wfRel.wf
    (fun c => ∑ i ∈ U, c.weight i) (fun _ _ hI hs => callsLive_advances hI hs)
    (fun _ hI => hI.exists_step) h

/-- Two puts of one key that are under way. -/
theorem calls_return_two_clients :
    let o : IntOptions := ⟨⟨.int, 1, 10, by decide, by decide, by decide⟩, Or.inl rfl⟩
    ∃ md, mdhimInit o.toMdhimOptions 2 0 = some md ∧
      ∃ c : Calls (IntKey o) ℕ, exec (callsStep (intKeyspace (o := o) md) true) .init
          [.call 0 (.put 5 [1]), .call 1 (.put 5 [7]), .arrive 1, .work 0] = some c ∧
        c.pc 0 = .getMsgSelf 0 ∧ c.pc 1 = .receiving 0 0 ∧
        Inevitable (Calls.Advances (intKeyspace (o := o) md) true)
          (fun c => c.Rests (intKeyspace (o := o) md) ∨ c.Overflows (intKeyspace (o := o) md) true)
          c := by
  intro o
  let md : Mdhim := ⟨o.toMdhimOptions, 0, 2, getNumRangeServers o.toMdhimOptions 2,
    rangesrvsOf o.toMdhimOptions 2, rangesrvMaster (rangesrvsOf o.toMdhimOptions 2)⟩
  refine ⟨md, mdhimInit_eq (by decide) 0, ?_⟩
  have hrun : (exec (callsStep (intKeyspace (o := o) md) true) (.init : Calls (IntKey o) ℕ)
      [.call 0 (.put 5 [1]), .call 1 (.put 5 [7]), .arrive 1, .work 0]).any (fun c =>
        c.pc 0 = .getMsgSelf 0 ∧ c.pc 1 = .receiving 0 0) = true := by
    decide
  obtain ⟨c, hc, hpc⟩ := (Option.any_eq_true _ _).mp hrun
  obtain ⟨hpc0, hpc1⟩ := of_decide_eq_true hpc
  exact ⟨c, hc, hpc0, hpc1, calls_return _ true (by decide) hc⟩

end MpiToShmem
