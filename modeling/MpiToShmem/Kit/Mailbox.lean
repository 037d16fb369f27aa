import MpiToShmem.Kit.Runs
import Mathlib.Data.List.Basic
import Mathlib.Tactic.Common

/-!
# Point-to-point messages

What a message passing layer is for: a receive takes the earliest message not yet received that
its source sent to it with its tag, and takes it once.

1. `mailStep` is the specification as a machine over the messages sent and not yet received.
2. `Faithful h`: the machine accepts the history `h`, so every receive in it took the right message.
3. `mailStep_received` is the step of a receive by a process that has one message waiting.
-/

namespace Kit

/-! ## Lists -/

theorem filter_eraseP {α : Type*} {p r : α → Bool} (h : ∀ m, p m → r m) (q : List α) :
    (q.eraseP p).filter r = (q.filter r).eraseP p := by
  induction q with
  | nil => rfl
  | cons m q ih =>
    by_cases hp : p m
    · rw [List.eraseP_cons_of_pos hp, List.filter_cons_of_pos (h m hp), List.eraseP_cons_of_pos hp]
    · rw [List.eraseP_cons_of_neg hp]
      by_cases hr : r m
      · rw [List.filter_cons_of_pos hr, List.filter_cons_of_pos hr, List.eraseP_cons_of_neg hp, ih]
      · rw [List.filter_cons_of_neg hr, List.filter_cons_of_neg hr, ih]

theorem filter_eraseP_of_disjoint {α : Type*} {p r : α → Bool} (h : ∀ m, p m → ¬ r m)
    (q : List α) : (q.eraseP p).filter r = q.filter r := by
  induction q with
  | nil => rfl
  | cons m q ih =>
    by_cases hp : p m
    · rw [List.eraseP_cons_of_pos hp, List.filter_cons_of_neg (h m hp)]
    · rw [List.eraseP_cons_of_neg hp, List.filter_cons, List.filter_cons, ih]

/-! ## The specification -/

/-- A message from `src` to `dst`. -/
structure Msg (P T M : Type*) where
  src : P
  dst : P
  tag : T
  payload : M
deriving DecidableEq

/-- What a process has done: started a send, or returned from a receive with a payload. -/
inductive MailEvent (P T M : Type*) where
  | sent (m : Msg P T M)
  | received (m : Msg P T M)
deriving DecidableEq

variable {P T M : Type*} [DecidableEq P] [DecidableEq T] [DecidableEq M]

/-- A receive for the envelope of `m` can take `m'`. -/
def Msg.matches (m m' : Msg P T M) : Bool := m'.src = m.src ∧ m'.dst = m.dst ∧ m'.tag = m.tag

omit [DecidableEq M] in
theorem Msg.dst_of_matches {m m' : Msg P T M} (h : m.matches m') : m'.dst = m.dst := by
  unfold Msg.matches at h
  exact (of_decide_eq_true h).2.1

omit [DecidableEq M] in
@[simp] theorem Msg.matches_self (m : Msg P T M) : m.matches m := by simp [Msg.matches]

/-- One event, over the messages sent and not yet received in the order of their sends. -/
def mailStep (q : List (Msg P T M)) : MailEvent P T M → Option (List (Msg P T M))
  | .sent m => some (q ++ [m])
  | .received m => if q.find? m.matches = some m then some (q.eraseP m.matches) else none

/-- Every receive of the history took the earliest message that matches it and was still there. -/
def Faithful (h : List (MailEvent P T M)) : Prop := exec mailStep [] h ≠ none

instance (h : List (MailEvent P T M)) : Decidable (Faithful h) := by
  unfold Faithful; infer_instance

/-- The messages sent and not yet received. -/
def pending (h : List (MailEvent P T M)) : List (Msg P T M) := (exec mailStep [] h).getD []

/-- Those of them that wait for `d`. -/
def waitingFor (d : P) (q : List (Msg P T M)) : List (Msg P T M) := q.filter fun m => m.dst = d

/-! ## One more event -/

theorem exec_mailStep_append {h : List (MailEvent P T M)} {q : List (Msg P T M)}
    (hq : exec mailStep [] h = some q) (e : MailEvent P T M) :
    exec mailStep [] (h ++ [e]) = mailStep q e := by
  rw [exec_append, hq, Option.bind_some, exec_cons]
  cases mailStep q e <;> rfl

theorem pending_of_exec {h : List (MailEvent P T M)} {q : List (Msg P T M)}
    (hq : exec mailStep [] h = some q) : pending h = q := by rw [pending, hq, Option.getD_some]

omit [DecidableEq T] [DecidableEq M] in
theorem waitingFor_sent_self (q : List (Msg P T M)) (m : Msg P T M) :
    waitingFor m.dst (q ++ [m]) = waitingFor m.dst q ++ [m] := by
  simp [waitingFor]

omit [DecidableEq T] [DecidableEq M] in
theorem waitingFor_sent_of_ne {d : P} {m : Msg P T M} (h : d ≠ m.dst) (q : List (Msg P T M)) :
    waitingFor d (q ++ [m]) = waitingFor d q := by
  simp [waitingFor, Ne.symm h]

omit [DecidableEq M] in
theorem find?_waitingFor (q : List (Msg P T M)) (m : Msg P T M) :
    q.find? m.matches = (waitingFor m.dst q).find? m.matches := by
  unfold waitingFor
  rw [List.find?_filter]
  congr 1
  funext m'
  by_cases h : m.matches m'
  · simp [h, Msg.dst_of_matches h]
  · simp [h]

/-- A receive that takes the one message waiting for its process is accepted, leaves none waiting
for it and touches no other process. -/
theorem mailStep_received {q : List (Msg P T M)} {m : Msg P T M}
    (h : waitingFor m.dst q = [m]) :
    ∃ q', mailStep q (.received m) = some q' ∧ waitingFor m.dst q' = [] ∧
      ∀ d, d ≠ m.dst → waitingFor d q' = waitingFor d q := by
  refine ⟨q.eraseP m.matches, ?_, ?_, ?_⟩
  · show (if q.find? m.matches = some m then _ else _) = _
    rw [if_pos]
    rw [find?_waitingFor, h, List.find?_cons_of_pos (Msg.matches_self m)]
  · unfold waitingFor
    rw [filter_eraseP (fun m' h' => by simpa using Msg.dst_of_matches h')]
    show (waitingFor m.dst q).eraseP _ = []
    rw [h, List.eraseP_cons_of_pos (Msg.matches_self m)]
  · intro d hd
    unfold waitingFor
    refine filter_eraseP_of_disjoint (fun m' h' => ?_) q
    rw [Msg.dst_of_matches h']
    simpa using Ne.symm hd

end Kit
