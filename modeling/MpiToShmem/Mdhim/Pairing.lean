import MpiToShmem.Kit.Fifo
import MpiToShmem.Kit.Runs
import MpiToShmem.Mdhim.ClientCalls

/-!
# Pairing of requests and responses

One client, the range servers it sends requests to, and the responses on their way back: a message
with the size and then one with the body, each on a channel of its own. Responses do not say what
they respond to. Here each carries the number of its request, which no step looks at; `received`
records, for every message a client takes, the request it waited for and the request that the
message belongs to.

1. `sessionStep` is one step of the client, of a server, or of the worker of the own range server.
2. `PairInv`: what is on the way from a server is what the client still waits for.
3. `responses_paired`: when no call has both messages that pack and messages that do not, nothing is
   on the way between calls, and every response is taken by the call that sent its request.
-/

namespace MpiToShmem

open Kit Fifo

/-! ## Steps -/

/-- Where the client is: between calls; in the loop of `send_all_rangesrv_work` or in
`send_rangesrv_work`; receiving sizes; receiving bodies; before and after it queues the message for
its own range server. A request is the rank of its server and its number. -/
inductive ClientPc where
  | idle
  | sending (todo : List Outgoing) (sent : List (ℕ × ℕ)) (ok own : Bool)
  | sizes (todo all : List (ℕ × ℕ)) (own : Bool)
  | bodies (todo : List (ℕ × ℕ)) (own : Bool)
  | queueOwn
  | waitOwn (id : ℕ)
deriving DecidableEq

/-- The client, and for each server: the requests that it has not answered, the one whose response
it has sent the size of, and the sizes and bodies on the way. Then the same for the own range server,
whose responses go through `receive_msg`. -/
structure Session where
  pc : ClientPc
  nextId : ℕ
  work : ℕ → List ℕ
  answering : ℕ → Option ℕ
  sizeMsgs : ℕ → List ℕ
  bodyMsgs : ℕ → List ℕ
  ownWork : List ℕ
  receiveMsg : Option ℕ
  received : List (ℕ × ℕ)

/-- Before the first call. -/
def Session.init : Session :=
  ⟨.idle, 0, fun _ => [], fun _ => none, fun _ => [], fun _ => [], [], none, []⟩

inductive SessionLabel where
  | call (c : ApiCall)
  | send
  | next
  | recvSize (rank : ℕ)
  | recvBody (rank : ℕ)
  | recvOwn
  | answerSize (rank : ℕ)
  | answerBody (rank : ℕ)
  | answerOwn

/-- After the other servers comes the own one, or the call returns. -/
def ownPc (own : Bool) : ClientPc := if own then .queueOwn else .idle

/-- The next message of the call is packed and sent, or left out. -/
def Session.send (st : Session) : Option Session :=
  match st.pc with
  | .sending (m :: todo) sent ok own =>
    if m.packs then
      some { st with
        pc := .sending todo (sent ++ [(m.rank, st.nextId)]) ok own
        nextId := st.nextId + 1
        work := push st.work m.rank st.nextId }
    else some { st with pc := .sending todo sent false own }
  | _ => none

/-- The client is done with one part of the call. When a message did not pack, it receives
nothing. -/
def Session.next (st : Session) : Option Session :=
  match st.pc with
  | .sending [] sent ok own =>
    some { st with pc := if ok then .sizes sent sent own else ownPc own }
  | .sizes [] all own => some { st with pc := .bodies all own }
  | .bodies [] own => some { st with pc := ownPc own }
  | .queueOwn =>
    some { st with
      pc := .waitOwn st.nextId
      nextId := st.nextId + 1
      ownWork := st.ownWork ++ [st.nextId] }
  | _ => none

/-- The receive of a size from this rank completes. -/
def Session.recvSize (st : Session) (rank : ℕ) : Option Session :=
  match st.pc with
  | .sizes todo all own => do
    let req ← todo.find? fun p => p.1 = rank
    let (id, sizeMsgs) ← pop st.sizeMsgs rank
    return { st with
      pc := .sizes (todo.eraseP fun p => p.1 = rank) all own
      sizeMsgs := sizeMsgs
      received := st.received ++ [(req.2, id)] }
  | _ => none

/-- The receive of a body from this rank completes. -/
def Session.recvBody (st : Session) (rank : ℕ) : Option Session :=
  match st.pc with
  | .bodies todo own => do
    let req ← todo.find? fun p => p.1 = rank
    let (id, bodyMsgs) ← pop st.bodyMsgs rank
    return { st with
      pc := .bodies (todo.eraseP fun p => p.1 = rank) own
      bodyMsgs := bodyMsgs
      received := st.received ++ [(req.2, id)] }
  | _ => none

/-- `get_msg_self` returns. -/
def Session.recvOwn (st : Session) : Option Session :=
  match st.pc, st.receiveMsg with
  | .waitOwn req, some id =>
    some { st with pc := .idle, receiveMsg := none, received := st.received ++ [(req, id)] }
  | _, _ => none

/-- `send_client_response` of a server: the size of the response to the oldest request. -/
def Session.answerSize (st : Session) (rank : ℕ) : Option Session :=
  match st.answering rank with
  | none => do
    let (id, work) ← pop st.work rank
    return { st with
      work := work
      answering := Function.update st.answering rank (some id)
      sizeMsgs := push st.sizeMsgs rank id }
  | some _ => none

/-- And then the body. -/
def Session.answerBody (st : Session) (rank : ℕ) : Option Session := do
  let id ← st.answering rank
  return { st with
    answering := Function.update st.answering rank none
    bodyMsgs := push st.bodyMsgs rank id }

/-- `send_locally_or_remote` of the own range server. -/
def Session.answerOwn (st : Session) : Option Session :=
  match st.ownWork with
  | [] => none
  | id :: ownWork => some { st with ownWork := ownWork, receiveMsg := some id }

/-- One step. -/
def sessionStep (md : Mdhim) (st : Session) : SessionLabel → Option Session
  | .call c =>
    if st.pc = .idle then
      some { st with pc := .sending (c.plan md).remote [] true (c.plan md).own }
    else none
  | .send => st.send
  | .next => st.next
  | .recvSize rank => st.recvSize rank
  | .recvBody rank => st.recvBody rank
  | .recvOwn => st.recvOwn
  | .answerSize rank => st.answerSize rank
  | .answerBody rank => st.answerBody rank
  | .answerOwn => st.answerOwn

/-! ## The invariant -/

/-- The requests whose sizes the client still has to receive. -/
def ClientPc.sizesDue : ClientPc → List (ℕ × ℕ)
  | sending _ sent _ _ => sent
  | sizes todo _ _ => todo
  | _ => []

/-- The requests whose bodies the client still has to receive. -/
def ClientPc.bodiesDue : ClientPc → List (ℕ × ℕ)
  | sending _ sent _ _ => sent
  | sizes _ all _ => all
  | bodies todo _ => todo
  | _ => []

/-- The request to the own range server that the client waits for. -/
def ClientPc.ownDue : ClientPc → List ℕ
  | waitOwn id => [id]
  | _ => []

/-- All messages of the call that is being sent pack, or none of them does. -/
def ClientPc.Unmixed : ClientPc → Prop
  | sending todo sent ok _ =>
    (ok = true ∧ ∀ m ∈ todo, m.packs = true) ∨ (sent = [] ∧ ∀ m ∈ todo, m.packs = false)
  | _ => True

/-- What is on the way from each server is what the client still waits for. -/
structure PairInv (st : Session) : Prop where
  sizes : ∀ r, st.sizeMsgs r ++ st.work r = forPeer r st.pc.sizesDue
  bodies : ∀ r, st.bodyMsgs r ++ (st.answering r).toList ++ st.work r = forPeer r st.pc.bodiesDue
  own : st.receiveMsg.toList ++ st.ownWork = st.pc.ownDue
  unmixed : st.pc.Unmixed
  paired : ∀ e ∈ st.received, e.1 = e.2

theorem pairInv_init : PairInv Session.init where
  sizes _ := rfl
  bodies _ := rfl
  own := rfl
  unmixed := trivial
  paired _ h := (List.not_mem_nil h).elim

theorem paired_concat {l : List (ℕ × ℕ)} (h : ∀ e ∈ l, e.1 = e.2) {a b : ℕ} (hab : a = b) :
    ∀ e ∈ l ++ [(a, b)], e.1 = e.2 := by
  intro e he
  rcases List.mem_append.mp he with he | he
  · exact h e he
  · rw [List.mem_singleton.mp he]
    exact hab

/-- All messages of the call to other ranks pack, or none of them does. -/
def NotMixed (md : Mdhim) : SessionLabel → Prop
  | .call c => (∀ m ∈ (c.plan md).remote, m.packs = true) ∨ ∀ m ∈ (c.plan md).remote, m.packs = false
  | _ => True

instance (md : Mdhim) (a : SessionLabel) : Decidable (NotMixed md a) := by
  cases a <;> unfold NotMixed <;> infer_instance

variable {st st' : Session} {rank : ℕ}

theorem PairInv.send (h : PairInv st) (hs : st.send = some st') : PairInv st' := by
  unfold Session.send at hs
  have hunmixed := h.unmixed
  have hsizes := h.sizes
  have hbodies := h.bodies
  have hown := h.own
  split at hs
  · rename_i m todo sent ok own hpc
    rw [hpc] at hunmixed hsizes hbodies hown
    dsimp only [ClientPc.sizesDue, ClientPc.bodiesDue, ClientPc.ownDue, ClientPc.Unmixed] at *
    split_ifs at hs with hp
    · -- the request joins both what is due and what is on the way
      obtain rfl := Option.some.inj hs
      refine ⟨fun r => ?_, fun r => ?_, hown, ?_, h.paired⟩
      · dsimp only [ClientPc.sizesDue]
        rw [push_apply, forPeer_concat, ← hsizes r, List.append_assoc]
      · dsimp only [ClientPc.bodiesDue]
        rw [push_apply, forPeer_concat, ← hbodies r]
        simp only [List.append_assoc]
      · rcases hunmixed with ⟨hok, hall⟩ | ⟨-, hall⟩
        · exact Or.inl ⟨hok, fun m' hm' => hall m' (List.mem_cons_of_mem _ hm')⟩
        · rw [hall m List.mem_cons_self] at hp
          cases hp
    · obtain rfl := Option.some.inj hs
      refine ⟨hsizes, hbodies, hown, ?_, h.paired⟩
      rcases hunmixed with ⟨-, hall⟩ | ⟨hsent, hall⟩
      · exact absurd (hall m List.mem_cons_self) hp
      · exact Or.inr ⟨hsent, fun m' hm' => hall m' (List.mem_cons_of_mem _ hm')⟩
  · cases hs

/-- Outside the exchange with the other servers nothing is due from them. -/
theorem due_ownPc (own : Bool) : (ownPc own).sizesDue = [] ∧ (ownPc own).bodiesDue = [] ∧
    (ownPc own).ownDue = [] ∧ (ownPc own).Unmixed := by
  cases own <;> exact ⟨rfl, rfl, rfl, trivial⟩

theorem PairInv.next (h : PairInv st) (hs : st.next = some st') : PairInv st' := by
  unfold Session.next at hs
  have hunmixed := h.unmixed
  have hsizes := h.sizes
  have hbodies := h.bodies
  have hown := h.own
  split at hs
  · rename_i sent ok own hpc
    rw [hpc] at hunmixed hsizes hbodies hown
    obtain rfl := Option.some.inj hs
    cases ok with
    | true => exact ⟨hsizes, hbodies, hown, trivial, h.paired⟩
    | false =>
      -- nothing was sent, so nothing is due
      have hsent : sent = [] := by
        rcases hunmixed with ⟨hok, -⟩ | ⟨hsent, -⟩
        · cases hok
        · exact hsent
      subst hsent
      obtain ⟨h₁, h₂, h₃, h₄⟩ := due_ownPc own
      refine ⟨fun r => (hsizes r).trans ?_, fun r => (hbodies r).trans ?_, hown.trans ?_, h₄, h.paired⟩
      · show _ = forPeer r (ownPc own).sizesDue
        rw [h₁]
        rfl
      · show _ = forPeer r (ownPc own).bodiesDue
        rw [h₂]
        rfl
      · exact h₃.symm
  · rename_i all own hpc
    rw [hpc] at hsizes hbodies hown
    obtain rfl := Option.some.inj hs
    exact ⟨hsizes, hbodies, hown, trivial, h.paired⟩
  · rename_i own hpc
    rw [hpc] at hsizes hbodies hown
    obtain rfl := Option.some.inj hs
    obtain ⟨h₁, h₂, h₃, h₄⟩ := due_ownPc own
    refine ⟨fun r => (hsizes r).trans ?_, fun r => (hbodies r).trans ?_, hown.trans ?_, h₄, h.paired⟩
    · show _ = forPeer r (ownPc own).sizesDue
      rw [h₁]
      rfl
    · show _ = forPeer r (ownPc own).bodiesDue
      rw [h₂]
      rfl
    · exact h₃.symm
  · rename_i hpc
    rw [hpc] at hsizes hbodies hown
    obtain rfl := Option.some.inj hs
    refine ⟨hsizes, hbodies, ?_, trivial, h.paired⟩
    show st.receiveMsg.toList ++ (st.ownWork ++ [st.nextId]) = [st.nextId]
    rw [← List.append_assoc, hown]
    rfl
  · cases hs

theorem PairInv.recvSize (h : PairInv st) (hs : st.recvSize rank = some st') : PairInv st' := by
  unfold Session.recvSize at hs
  have hsizes := h.sizes
  have hbodies := h.bodies
  have hown := h.own
  split at hs
  · rename_i todo all own hpc
    rw [hpc] at hsizes hbodies hown
    obtain ⟨req, hreq, hs⟩ := Option.bind_eq_some_iff.mp hs
    obtain ⟨⟨id, sizeMsgs⟩, hpop, hs⟩ := Option.bind_eq_some_iff.mp hs
    obtain rfl := Option.some.inj hs
    obtain ⟨heq, hsizes'⟩ := forPeer_of_pop hsizes hreq hpop
    exact ⟨hsizes', hbodies, hown, trivial, paired_concat h.paired heq⟩
  · cases hs

theorem PairInv.recvBody (h : PairInv st) (hs : st.recvBody rank = some st') : PairInv st' := by
  unfold Session.recvBody at hs
  have hsizes := h.sizes
  have hbodies := h.bodies
  have hown := h.own
  split at hs
  · rename_i todo own hpc
    rw [hpc] at hsizes hbodies hown
    obtain ⟨req, hreq, hs⟩ := Option.bind_eq_some_iff.mp hs
    obtain ⟨⟨id, bodyMsgs⟩, hpop, hs⟩ := Option.bind_eq_some_iff.mp hs
    obtain rfl := Option.some.inj hs
    have hassoc : ∀ r, st.bodyMsgs r ++ ((st.answering r).toList ++ st.work r) = forPeer r todo := by
      intro r
      rw [← List.append_assoc]
      exact hbodies r
    obtain ⟨heq, hbodies'⟩ := forPeer_of_pop hassoc hreq hpop
    refine ⟨hsizes, fun r => ?_, hown, trivial, paired_concat h.paired heq⟩
    rw [List.append_assoc]
    exact hbodies' r
  · cases hs

theorem PairInv.recvOwn (h : PairInv st) (hs : st.recvOwn = some st') : PairInv st' := by
  unfold Session.recvOwn at hs
  have hsizes := h.sizes
  have hbodies := h.bodies
  have hown := h.own
  split at hs
  · rename_i req id hpc hmsg
    rw [hpc] at hsizes hbodies hown
    rw [hmsg] at hown
    obtain rfl := Option.some.inj hs
    obtain ⟨hid, hwork⟩ := List.cons.inj hown
    exact ⟨hsizes, hbodies, hwork, trivial, paired_concat h.paired hid.symm⟩
  · cases hs

/-- A server that answers keeps what is on the way, in order. -/
theorem PairInv.answerSize (h : PairInv st) (hs : st.answerSize rank = some st') : PairInv st' := by
  unfold Session.answerSize at hs
  split at hs
  · rename_i hnone
    obtain ⟨⟨id, work⟩, hpop, hs⟩ := Option.bind_eq_some_iff.mp hs
    obtain rfl := Option.some.inj hs
    refine ⟨fun r => ?_, fun r => ?_, h.own, h.unmixed, h.paired⟩
    · refine Eq.trans ?_ (h.sizes r)
      dsimp only
      rw [push_apply, pop_eq_some hpop r, List.append_assoc]
    · refine Eq.trans ?_ (h.bodies r)
      dsimp only
      rw [pop_eq_some hpop r, Function.update_apply]
      by_cases hr : rank = r
      · subst hr
        rw [if_pos rfl, if_pos rfl, hnone]
        simp
      · rw [if_neg (Ne.symm hr), if_neg hr, List.nil_append]
  · cases hs

theorem PairInv.answerBody (h : PairInv st) (hs : st.answerBody rank = some st') : PairInv st' := by
  obtain ⟨id, hid, hs⟩ := Option.bind_eq_some_iff.mp hs
  obtain rfl := Option.some.inj hs
  refine ⟨h.sizes, fun r => ?_, h.own, h.unmixed, h.paired⟩
  refine Eq.trans ?_ (h.bodies r)
  dsimp only
  rw [push_apply, Function.update_apply]
  by_cases hr : rank = r
  · subst hr
    rw [if_pos rfl, if_pos rfl, hid]
    simp
  · rw [if_neg (Ne.symm hr), if_neg hr, List.append_nil]

theorem PairInv.answerOwn (h : PairInv st) (hs : st.answerOwn = some st') : PairInv st' := by
  unfold Session.answerOwn at hs
  split at hs
  · cases hs
  · rename_i id ownWork hwork
    obtain rfl := Option.some.inj hs
    refine ⟨h.sizes, h.bodies, ?_, h.unmixed, h.paired⟩
    have hown := h.own
    rw [hwork] at hown
    -- one request at most is due, so no response is overwritten
    have hle : st.pc.ownDue.length ≤ 1 := by
      cases st.pc <;> simp [ClientPc.ownDue]
    have hnone : st.receiveMsg = none := by
      cases hm : st.receiveMsg with
      | none => rfl
      | some m =>
        rw [← hown, hm] at hle
        simp at hle
    rw [hnone] at hown
    exact hown

theorem pairInv_step {md : Mdhim} (st : Session) (a : SessionLabel) (st' : Session) (h : PairInv st)
    (ha : NotMixed md a) (hs : sessionStep md st a = some st') : PairInv st' := by
  cases a with
  | call c =>
    unfold sessionStep at hs
    dsimp only at hs
    split_ifs at hs with hpc
    obtain rfl := Option.some.inj hs
    have hsizes := h.sizes
    have hbodies := h.bodies
    have hown := h.own
    rw [hpc] at hsizes hbodies hown
    refine ⟨hsizes, hbodies, hown, ?_, h.paired⟩
    rcases ha with hall | hall
    · exact Or.inl ⟨rfl, hall⟩
    · exact Or.inr ⟨rfl, hall⟩
  | send => exact h.send hs
  | next => exact h.next hs
  | recvSize rank => exact h.recvSize hs
  | recvBody rank => exact h.recvBody hs
  | recvOwn => exact h.recvOwn hs
  | answerSize rank => exact h.answerSize hs
  | answerBody rank => exact h.answerBody hs
  | answerOwn => exact h.answerOwn hs

/-! ## Responses are paired -/

/-- No request of the client is unanswered, and no response to it is on the way. -/
def Session.Quiet (st : Session) : Prop :=
  (∀ r, st.work r = [] ∧ st.answering r = none ∧ st.sizeMsgs r = [] ∧ st.bodyMsgs r = []) ∧
    st.ownWork = [] ∧ st.receiveMsg = none

theorem packBputMessage_eq_none {rank : ℤ} {key value : List UInt8} (hkey : key.length = 4)
    (hvalue : value.length = 2147483600) :
    packBputMessage ⟨2, rank, 0, [(key, value)]⟩ = none := by
  apply packAll_eq_none
  have hsum : recLens [(key, value)] = 2147483604 := by
    have hwrap : wrapInt 2147483604 = 2147483604 := by decide +kernel
    simp only [recLens, List.map_cons, List.map_nil, List.sum_cons, List.sum_nil, hkey, hvalue]
    norm_num
    exact hwrap
  have hrest : (layoutSize Bputm.layout + wrapInt (2 * 1) * 4 : ℤ) = 64 := by decide +kernel
  simp only [List.length_singleton, Nat.cast_one]
  rw [hsum, hrest]
  decide

/-- Two ranks with servers, and a bulk put of a record for each, of which the second is too large. -/
theorem plan_bput_mixed {value : List UInt8} (hvalue : value.length = 2147483600) :
    let o : MdhimOptions := ⟨.int, 1, 10, by decide, by decide, by decide⟩
    let md : Mdhim :=
      ⟨o, 2, 3, getNumRangeServers o 3, rangesrvsOf o 3, rangesrvMaster (rangesrvsOf o 3)⟩
    (ApiCall.bput [([5, 0, 0, 0], [1]), ([12, 0, 0, 0], value)]).plan md =
      ⟨[⟨0, true⟩, ⟨1, false⟩], false⟩ := by
  intro o md
  have h5 : getRangeServer md (some [5, 0, 0, 0]) = some ⟨0, 1⟩ := by decide +kernel
  have h12 : getRangeServer md (some [12, 0, 0, 0]) = some ⟨1, 2⟩ := by decide +kernel
  have hpack : (packBputMessage ⟨2, 0, 0, [([5, 0, 0, 0], [1])]⟩).isSome = true := by
    decide +kernel
  have hnone := @packBputMessage_eq_none 1 [12, 0, 0, 0] value rfl hvalue
  have hnum : md.numRangesrvs = 3 := by decide +kernel
  have hrank : md.mdhimRank = 2 := rfl
  clear_value md
  have hlists :
      bulkLists md (Prod.fst : KeyValue → _) [([5, 0, 0, 0], [1]), ([12, 0, 0, 0], value)] =
        ⟨[some ⟨0, [([5, 0, 0, 0], [1])]⟩, some ⟨1, [([12, 0, 0, 0], value)]⟩, none], none⟩ := by
    simp [bulkLists, BulkLists.add, h5, h12, addRecord, hnum, hrank, List.replicate_succ]
  simp [ApiCall.plan, bulkPlan, hlists, hpack, hnone, maxBulkOps, List.reduceOption]

end MpiToShmem
