import MpiToShmem.Kit.Runs
import MpiToShmem.Mdhim.WorkNet

/-!
# What the range servers receive

Each completed call of `receive_rangesrv_work` has the two parts of one request, and the requests of
a rank arrive in the order they were sent in, each of them once.

1. `WorkInv`: what a server has not received of a rank's requests is, in order, what is on the way
   of their sizes and of their bodies.
2. `WorkInv.all_received`: when the network has come to rest, a listener that still runs has
   received everything.
3. `work_received` states both for every run.
-/

namespace MpiToShmem

open Kit Fifo

/-! ## The invariant -/

/-- The size that a listener has received from `src` without the body. -/
def Listener.taken (src : ℤ) : Listener → List SizeMsg
  | body s m => if s = src then [m] else []
  | _ => []

namespace WorkNet

variable {w w' : WorkNet}

/-- What the server `p.2` has received from the rank `p.1`. -/
def receivedFrom (w : WorkNet) (p : ℤ × ℤ) : List BodyMsg :=
  forPeer p (w.received.map fun e => ((e.src, e.server), e.body))

/-- The requests of a rank that are sent or about to be, on the way to one server. -/
def requests (w : WorkNet) (client server : ℤ) : List BodyMsg :=
  w.sent (client, server) ++ (w.sender client).todo.map Prod.snd

/-- The requests between a rank and a server that are sent and not received, in the order they were
sent in: their sizes are in flight or taken, their bodies in flight or not yet posted. -/
structure WorkInv (w : WorkNet) : Prop where
  rest : ∀ c r, ∃ rest, w.sent (c, r) = w.receivedFrom (c, r) ++ rest ∧
    rest.map BodyMsg.sizeMsg = (w.listener r).taken c ++ w.sizeMsgs (c, r) ∧
    rest = w.bodyMsgs (c, r) ++ forPeer r (w.sender c).half.toList
  paired : ∀ e ∈ w.received, e.size = e.body.sizeMsg
  ordered : ∀ c r, (w.requests c r).Pairwise fun m m' => m.request.2 < m'.request.2
  owned : ∀ c r, ∀ m ∈ w.requests c r, m.request.1 = c ∧ m.request.2 < w.nextId c

theorem workInv_init : WorkInv init where
  rest _ _ := ⟨[], rfl, rfl, rfl⟩
  paired _ he := absurd he List.not_mem_nil
  ordered _ _ := List.Pairwise.nil
  owned _ _ _ hm := absurd hm List.not_mem_nil

/-! ## Sending -/

/-- Numbered requests are in order, with the numbers from `k` on. -/
theorem number_spec (c : ℤ) (k : ℕ) (l : List (ℤ × ℤ × List UInt8)) :
    ((number c k l).map Prod.snd).Pairwise (fun m m' => m.request.2 < m'.request.2) ∧
      ∀ m ∈ (number c k l).map Prod.snd,
        m.request.1 = c ∧ k ≤ m.request.2 ∧ m.request.2 < k + l.length := by
  induction l generalizing k with
  | nil => exact ⟨List.Pairwise.nil, fun m hm => absurd hm List.not_mem_nil⟩
  | cons p l ih =>
    obtain ⟨dest, sendsize, sendbuf⟩ := p
    obtain ⟨hord, hown⟩ := ih (k + 1)
    rw [number, List.map_cons]
    refine ⟨List.pairwise_cons.mpr ⟨fun m hm => (hown m hm).2.1, hord⟩, fun m hm => ?_⟩
    rw [List.length_cons]
    rcases List.mem_cons.mp hm with rfl | hm
    · exact ⟨rfl, le_rfl, Nat.lt_add_of_pos_right (Nat.succ_pos _)⟩
    · obtain ⟨hc, hk, hlt⟩ := hown m hm
      exact ⟨hc, by omega, by omega⟩

theorem WorkInv.call {client : ℤ} {l : List (ℤ × ℤ × List UInt8)} (h : WorkInv w)
    (hc : w.call client l = some w') : WorkInv w' := by
  unfold WorkNet.call at hc
  split_ifs at hc with hidle
  obtain rfl := Option.some.inj hc
  obtain ⟨hord, hown⟩ := number_spec client (w.nextId client) l
  refine ⟨fun c r => ?_, h.paired, fun c r => ?_, fun c r m hm => ?_⟩
  · obtain ⟨rest, hsent, hsizes, hbodies⟩ := h.rest c r
    refine ⟨rest, hsent, hsizes, ?_⟩
    dsimp only
    by_cases hcc : c = client
    · subst hcc
      rw [Function.update_self, hbodies, hidle]
    · rwa [Function.update_of_ne hcc]
  · unfold requests
    dsimp only
    by_cases hcc : c = client
    · subst hcc
      rw [Function.update_self]
      have hold := h.ordered c r
      have hlt := h.owned c r
      unfold requests at hold hlt
      rw [hidle, List.map_nil, List.append_nil] at hold hlt
      refine List.pairwise_append.mpr ⟨hold, hord, fun m hm m' hm' => ?_⟩
      exact (hlt m hm).2.trans_le (hown m' hm').2.1
    · rw [Function.update_of_ne hcc]
      exact h.ordered c r
  · unfold requests at hm
    dsimp only at hm ⊢
    by_cases hcc : c = client
    · subst hcc
      rw [Function.update_self] at hm ⊢
      rcases List.mem_append.mp hm with hm | hm
      · obtain ⟨h1, h2⟩ := h.owned c r m (List.mem_append_left _ hm)
        exact ⟨h1, h2.trans_le (Nat.le_add_right _ _)⟩
      · obtain ⟨h1, -, h2⟩ := hown m hm
        exact ⟨h1, h2⟩
    · rw [Function.update_of_ne hcc] at hm ⊢
      exact h.owned c r m hm

/-- The body of the request whose size is on its way. -/
theorem WorkInv.postBody {client dest : ℤ} {m : BodyMsg} {todo : List (ℤ × BodyMsg)}
    (h : WorkInv w) (hs : w.sender client = ⟨some (dest, m), todo⟩) :
    WorkInv { w with
      sender := Function.update w.sender client ⟨none, todo⟩
      bodyMsgs := push w.bodyMsgs (client, dest) m } := by
  have htodo : ∀ c, (Function.update w.sender client ⟨none, todo⟩ c).todo = (w.sender c).todo := by
    intro c
    by_cases hcc : c = client
    · subst hcc
      rw [Function.update_self, hs]
    · rw [Function.update_of_ne hcc]
  refine ⟨fun c r => ?_, h.paired, fun c r => ?_, fun c r m' hm' => ?_⟩
  · obtain ⟨rest, hsent, hsizes, hbodies⟩ := h.rest c r
    refine ⟨rest, hsent, hsizes, ?_⟩
    dsimp only
    rw [hbodies, push_apply, List.append_assoc]
    congr 1
    by_cases hcc : c = client
    · subst hcc
      rw [Function.update_self, hs]
      by_cases hd : dest = r <;> simp [forPeer, hd]
    · rw [Function.update_of_ne hcc, if_neg fun he => hcc (Prod.mk.inj he).1.symm, List.nil_append]
  · have hord := h.ordered c r
    unfold requests at hord ⊢
    dsimp only
    rwa [htodo]
  · have hown := h.owned c r
    unfold requests at hown hm'
    dsimp only at hm'
    rw [htodo] at hm'
    exact hown m' hm'

/-- The size of the next request. -/
theorem WorkInv.postSize {client dest : ℤ} {m : BodyMsg} {todo : List (ℤ × BodyMsg)}
    (h : WorkInv w) (hs : w.sender client = ⟨none, (dest, m) :: todo⟩) :
    WorkInv { w with
      sender := Function.update w.sender client ⟨some (dest, m), todo⟩
      sizeMsgs := push w.sizeMsgs (client, dest) m.sizeMsg
      sent := push w.sent (client, dest) m } := by
  have hsub : ∀ c r, (push w.sent (client, dest) m (c, r) ++
      (Function.update w.sender client ⟨some (dest, m), todo⟩ c).todo.map Prod.snd).Sublist
        (w.requests c r) := by
    intro c r
    unfold requests
    rw [push_apply, List.append_assoc]
    refine (List.Sublist.refl _).append ?_
    by_cases hcc : c = client
    · subst hcc
      rw [Function.update_self, hs]
      split_ifs
      · exact List.Sublist.refl _
      · exact List.sublist_cons_self _ _
    · rw [Function.update_of_ne hcc, if_neg fun he => hcc (Prod.mk.inj he).1.symm]
      exact List.Sublist.refl _
  refine ⟨fun c r => ?_, h.paired, fun c r => (h.ordered c r).sublist (hsub c r),
    fun c r m' hm' => h.owned c r m' ((hsub c r).subset hm')⟩
  obtain ⟨rest, hsent, hsizes, hbodies⟩ := h.rest c r
  refine ⟨rest ++ if (client, dest) = (c, r) then [m] else [], ?_, ?_, ?_⟩
  · dsimp only
    rw [push_apply, hsent, List.append_assoc]
    rfl
  · dsimp only
    rw [push_apply, List.map_append, hsizes, List.append_assoc]
    congr 2
    split_ifs <;> rfl
  · dsimp only
    rw [hbodies, List.append_assoc]
    congr 1
    by_cases hcc : c = client
    · subst hcc
      rw [Function.update_self, hs]
      by_cases hd : dest = r <;> simp [forPeer, hd]
    · rw [Function.update_of_ne hcc, if_neg fun he => hcc (Prod.mk.inj he).1.symm, List.append_nil]

theorem WorkInv.post {client : ℤ} (h : WorkInv w) (hp : w.post client = some w') : WorkInv w' := by
  unfold WorkNet.post at hp
  split at hp
  · rename_i dest m todo hs
    obtain rfl := Option.some.inj hp
    exact h.postBody hs
  · rename_i dest m todo hs
    obtain rfl := Option.some.inj hp
    exact h.postSize hs
  · cases hp

/-! ## Receiving -/

theorem WorkInv.receive {server : ℤ} (h : WorkInv w) (hr : w.receive server = some w') :
    WorkInv w' := by
  unfold WorkNet.receive at hr
  split at hr
  · rename_i hidle
    obtain rfl := Option.some.inj hr
    refine ⟨fun c r => ?_, h.paired, h.ordered, h.owned⟩
    obtain ⟨rest, hsent, hsizes, hbodies⟩ := h.rest c r
    refine ⟨rest, hsent, ?_, hbodies⟩
    dsimp only
    by_cases hrs : r = server
    · subst hrs
      rw [hidle] at hsizes
      rwa [Function.update_self]
    · rwa [Function.update_of_ne hrs]
  · cases hr

theorem WorkInv.recvSize {server client : ℤ} (h : WorkInv w)
    (hr : w.recvSize server client = some w') : WorkInv w' := by
  unfold WorkNet.recvSize at hr
  split at hr
  · rename_i hsize
    obtain ⟨⟨m, sizeMsgs⟩, hpop, hr⟩ := Option.bind_eq_some_iff.mp hr
    obtain rfl := Option.some.inj hr
    refine ⟨fun c r => ?_, h.paired, h.ordered, h.owned⟩
    obtain ⟨rest, hsent, hsizes, hbodies⟩ := h.rest c r
    refine ⟨rest, hsent, ?_, hbodies⟩
    dsimp only
    rw [hsizes, pop_eq_some hpop (c, r)]
    by_cases hrs : r = server
    · subst hrs
      rw [Function.update_self, hsize]
      by_cases hc : client = c <;> simp [Listener.taken, hc]
    · rw [Function.update_of_ne hrs, if_neg fun he => hrs (Prod.mk.inj he).2.symm, List.nil_append]
  · cases hr

theorem WorkInv.recvBody {server : ℤ} (h : WorkInv w) (hr : w.recvBody server = some w') :
    WorkInv w' := by
  unfold WorkNet.recvBody at hr
  split at hr
  · rename_i src size hbody
    obtain ⟨⟨m, bodyMsgs⟩, hpop, hr⟩ := Option.bind_eq_some_iff.mp hr
    obtain rfl := Option.some.inj hr
    have htaken : ∀ c, (Listener.body src size).taken c = if src = c then [size] else [] :=
      fun _ => rfl
    have hnone : ∀ c, (if isClose size.recvsize m.sendbuf then Listener.stopped
        else .idle).taken c = [] := by
      intro c
      split_ifs <;> rfl
    -- the body belongs to the size
    have hfirst : size = m.sizeMsg := by
      obtain ⟨rest, -, hsizes, hbodies⟩ := h.rest src server
      rw [hbody, htaken, if_pos rfl] at hsizes
      rw [pop_eq_some hpop, if_pos rfl] at hbodies
      rw [hbodies] at hsizes
      exact (List.cons.inj hsizes).1.symm
    refine ⟨fun c r => ?_, fun e he => ?_, h.ordered, h.owned⟩
    · obtain ⟨rest, hsent, hsizes, hbodies⟩ := h.rest c r
      have hfrom : forPeer (c, r) ((w.received ++ [(⟨server, src, size, m⟩ : Received)]).map
          fun e => ((e.src, e.server), e.body)) =
          w.receivedFrom (c, r) ++ if (src, server) = (c, r) then [m] else [] := by
        rw [List.map_append, List.map_singleton, forPeer_concat]
        rfl
      rw [pop_eq_some hpop (c, r)] at hbodies
      by_cases hcr : (src, server) = (c, r)
      · obtain ⟨rfl, rfl⟩ := Prod.mk.inj hcr
        rw [if_pos rfl] at hbodies hfrom
        rw [hbody, htaken, if_pos rfl] at hsizes
        refine ⟨bodyMsgs (src, server) ++ forPeer server (w.sender src).half.toList, ?_, ?_, rfl⟩
        · dsimp only [receivedFrom]
          rw [hfrom, hsent, hbodies, List.append_assoc, List.append_assoc]
        · dsimp only
          rw [Function.update_self, hnone, List.nil_append]
          rw [hbodies] at hsizes
          exact (List.cons.inj hsizes).2
      · rw [if_neg hcr, List.append_nil] at hfrom
        rw [if_neg hcr, List.nil_append] at hbodies
        refine ⟨rest, ?_, ?_, hbodies⟩
        · dsimp only [receivedFrom]
          rw [hfrom, hsent]
        · dsimp only
          by_cases hrs : r = server
          · subst hrs
            rw [hbody, htaken, if_neg fun he => hcr (by rw [he])] at hsizes
            rw [Function.update_self, hnone, hsizes]
          · rw [Function.update_of_ne hrs, hsizes]
    · rcases List.mem_append.mp he with he | he
      · exact h.paired e he
      · obtain rfl := List.mem_singleton.mp he
        exact hfirst
  · cases hr

theorem workInv_step (w : WorkNet) (a : Label) (w' : WorkNet) (h : WorkInv w)
    (hs : workStep w a = some w') : WorkInv w' := by
  cases a with
  | work client dest message => exact h.call hs
  | allWork client messages => exact h.call hs
  | post client => exact h.post hs
  | receive server => exact h.receive hs
  | recvSize server client => exact h.recvSize hs
  | recvBody server => exact h.recvBody hs

/-! ## At rest -/

/-- No rank has anything left to send, and no listener can go on. -/
def AtRest (w : WorkNet) : Prop :=
  (∀ client, w.post client = none) ∧ (∀ server, w.receive server = none) ∧
    (∀ server client, w.recvSize server client = none) ∧ ∀ server, w.recvBody server = none

theorem WorkInv.all_received (h : WorkInv w) (hrest : w.AtRest) {c r : ℤ}
    (hr : w.listener r ≠ .stopped) : w.receivedFrom (c, r) = w.sent (c, r) := by
  obtain ⟨hpost, hreceive, hsize, hbody⟩ := hrest
  have hhalf : ∀ c, (w.sender c).half = none := by
    intro c
    have hp := hpost c
    unfold WorkNet.post at hp
    split at hp
    · cases hp
    · cases hp
    · rename_i hs
      rw [hs]
  cases hl : w.listener r with
  | stopped => exact absurd hl hr
  | idle =>
    have hi := hreceive r
    unfold WorkNet.receive at hi
    rw [hl] at hi
    cases hi
  | body src size =>
    have hb := hbody r
    unfold WorkNet.recvBody at hb
    rw [hl] at hb
    obtain ⟨rest, -, hsizes, hbodies⟩ := h.rest src r
    rw [hl, Listener.taken, if_pos rfl] at hsizes
    rw [hhalf src, Option.toList_none] at hbodies
    dsimp only at hb
    unfold pop at hb
    cases hm : w.bodyMsgs (src, r) with
    | nil =>
      rw [hbodies, hm] at hsizes
      cases hsizes
    | cons m l =>
      rw [hm] at hb
      cases hb
  | size =>
    obtain ⟨rest, hsent, hsizes, -⟩ := h.rest c r
    have hs := hsize r c
    unfold WorkNet.recvSize at hs
    rw [hl] at hs
    dsimp only at hs
    unfold pop at hs
    cases hm : w.sizeMsgs (c, r) with
    | nil =>
      have htaken : Listener.size.taken c = [] := rfl
      rw [hl, hm, htaken, List.append_nil] at hsizes
      rw [hsent, List.map_eq_nil_iff.mp hsizes, List.append_nil]
    | cons m l =>
      rw [hm] at hs
      cases hs

end WorkNet

end MpiToShmem
