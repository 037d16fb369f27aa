import Mathlib.Data.List.Basic

/-!
# Histories against an abstract state

A system records what happened as a list of events. An abstract state moves with each event, and an
event is right or wrong in the abstract state before it. `Explains` says that every event of a
history is right; it grows with the history at its end.
-/

namespace Kit

variable {A E : Type*} (next : A → E → A) (ok : A → E → Prop)

/-- Every event is right in the abstract state that the events before it lead to. -/
def Explains (a : A) : List E → Prop
  | [] => True
  | e :: es => ok a e ∧ Explains (next a e) es

variable {next ok} {a : A} {es : List E} {e : E}

theorem explains_append {fs : List E} :
    Explains next ok a (es ++ fs) ↔
      Explains next ok a es ∧ Explains next ok (es.foldl next a) fs := by
  induction es generalizing a with
  | nil => simp [Explains]
  | cons e es ih =>
    rw [List.cons_append, Explains, Explains, ih, List.foldl_cons, and_assoc]

/-- One more event. -/
theorem explains_concat :
    Explains next ok a (es ++ [e]) ↔ Explains next ok a es ∧ ok (es.foldl next a) e := by
  rw [explains_append]
  simp [Explains]

end Kit
