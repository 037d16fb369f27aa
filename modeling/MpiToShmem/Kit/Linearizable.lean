import MpiToShmem.Kit.History
import Mathlib.Data.List.Induction
import Mathlib.Data.List.Nodup

/-!
# Linearizable histories

Operations on an object take time, and those of different clients overlap: a history has their calls
and their returns. It is linearizable when all of them could have been done one after the other, in an
order in which an operation that returned before another was called comes first.

1. `Linearization`: such an order, with the operations that returned and maybe some that have not.
2. `Timed`: a history in which it is marked when an operation takes effect, between its call and its
   return.
3. `Timed.linearization`: the order of the effects is a linearization, when it is right for the object.
4. `Timed.calls`, `Timed.takeEffect` and `Timed.rets`: operations that are called, take effect or return
   together.
-/

namespace Kit

variable {ι ω ρ A : Type*}

/-- What a client sees of an operation. -/
inductive Event (ι ω ρ : Type*) where
  | call (id : ι) (op : ω)
  | ret (id : ι) (result : ρ)
deriving DecidableEq

/-- An operation with its result. -/
structure Done (ι ω ρ : Type*) where
  id : ι
  op : ω
  result : ρ
deriving DecidableEq

/-- Every operation has the result that the object gives after those before it. -/
def Sequential (obj : A → ω → A × ρ) : A → List (Done ι ω ρ) → Prop :=
  Explains (fun a d => (obj a d.op).1) fun a d => d.result = (obj a d.op).2

structure Linearization (obj : A → ω → A × ρ) (a : A) (history : List (Event ι ω ρ))
    (order : List (Done ι ω ρ)) : Prop where
  once : (order.map Done.id).Nodup
  called : ∀ d ∈ order, .call d.id d.op ∈ history
  returned : ∀ i r, .ret i r ∈ history → ∃ d ∈ order, d.id = i ∧ d.result = r
  sequential : Sequential obj a order
  realTime : ∀ i r, ∀ d' ∈ order, [.ret i r, .call d'.id d'.op].Sublist history →
    ∃ d, d.id = i ∧ [d, d'].Sublist order

def Linearizable (obj : A → ω → A × ρ) (a : A) (history : List (Event ι ω ρ)) : Prop :=
  ∃ order, Linearization obj a history order

/-! ## Effects -/

/-- An event, or an operation that takes effect. -/
inductive Mark (ι ω ρ : Type*) where
  | event (e : Event ι ω ρ)
  | effect (d : Done ι ω ρ)
deriving DecidableEq

def Mark.event? : Mark ι ω ρ → Option (Event ι ω ρ)
  | .event e => some e
  | .effect _ => none

def Mark.effect? : Mark ι ω ρ → Option (Done ι ω ρ)
  | .event _ => none
  | .effect d => some d

def events (m : List (Mark ι ω ρ)) : List (Event ι ω ρ) := m.filterMap Mark.event?

def effects (m : List (Mark ι ω ρ)) : List (Done ι ω ρ) := m.filterMap Mark.effect?

variable {m : List (Mark ι ω ρ)} {e : Event ι ω ρ} {d : Done ι ω ρ}

@[simp] theorem events_nil : events ([] : List (Mark ι ω ρ)) = [] := rfl

@[simp] theorem effects_nil : effects ([] : List (Mark ι ω ρ)) = [] := rfl

@[simp] theorem events_append {m' : List (Mark ι ω ρ)} : events (m ++ m') = events m ++ events m' :=
  List.filterMap_append

@[simp] theorem effects_append {m' : List (Mark ι ω ρ)} :
    effects (m ++ m') = effects m ++ effects m' := List.filterMap_append

@[simp] theorem events_event : events (.event e :: m) = e :: events m := rfl

@[simp] theorem events_effect : events (.effect d :: m) = events m := rfl

@[simp] theorem effects_event : effects (.event e :: m) = effects m := rfl

@[simp] theorem effects_effect : effects (.effect d :: m) = d :: effects m := rfl

/-- Operations are called under new names, take effect once after that, and return what they did. -/
inductive Timed : List (Mark ι ω ρ) → Prop
  | start : Timed []
  | call {m : List (Mark ι ω ρ)} {i : ι} (op : ω) (h : Timed m)
    (hnew : ∀ op', .call i op' ∉ events m) : Timed (m ++ [.event (.call i op)])
  | effect {m : List (Mark ι ω ρ)} {d : Done ι ω ρ} (h : Timed m)
    (hcall : .call d.id d.op ∈ events m) (hnew : d.id ∉ (effects m).map Done.id) :
    Timed (m ++ [.effect d])
  | ret {m : List (Mark ι ω ρ)} {d : Done ι ω ρ} (h : Timed m) (hd : d ∈ effects m) :
    Timed (m ++ [.event (.ret d.id d.result)])

/-! ## The order of the effects -/

theorem pair_sublist_concat {α : Type*} {l : List α} {x y z : α} :
    [x, y].Sublist (l ++ [z]) ↔ [x, y].Sublist l ∨ x ∈ l ∧ y = z := by
  constructor
  · intro h
    obtain ⟨l₁, l₂, hl, h₁, h₂⟩ := List.sublist_append_iff.mp h
    match l₁, l₂, hl, h₁, h₂ with
    | [], _, rfl, _, h₂ => exact absurd h₂.length_le (by simp)
    | [_], _, rfl, h₁, h₂ =>
      exact .inr ⟨List.singleton_sublist.mp h₁, List.mem_singleton.mp (List.singleton_sublist.mp h₂)⟩
    | [_, _], [], rfl, h₁, _ => exact .inl h₁
  · rintro (h | ⟨hx, rfl⟩)
    · exact h.trans (List.sublist_append_left _ _)
    · exact (List.singleton_sublist.mpr hx).append (List.Sublist.refl [y])

theorem Timed.once (h : Timed m) : ((effects m).map Done.id).Nodup := by
  induction h with
  | start => exact List.nodup_nil
  | call op _ _ ih => simpa using ih
  | effect _ _ hnew ih =>
    rw [effects_append, List.map_append]
    exact ih.append (List.nodup_singleton _) (List.disjoint_singleton.mpr hnew)
  | ret _ _ ih => simpa using ih

theorem Timed.called (h : Timed m) : ∀ d ∈ effects m, .call d.id d.op ∈ events m := by
  induction h with
  | start => simp
  | call op _ _ ih =>
    intro d hd
    rw [events_append]
    exact List.mem_append_left _ (ih d (by simpa using hd))
  | effect _ hcall _ ih =>
    intro d hd
    rw [events_append]
    refine List.mem_append_left _ ?_
    rcases List.mem_append.mp (effects_append ▸ hd) with hd | hd
    · exact ih d hd
    · rwa [List.mem_singleton.mp hd]
  | ret _ _ ih =>
    intro d hd
    rw [events_append]
    exact List.mem_append_left _ (ih d (by simpa using hd))

theorem Timed.returned (h : Timed m) {i : ι} {r : ρ} (hr : .ret i r ∈ events m) :
    ∃ d ∈ effects m, d.id = i ∧ d.result = r := by
  induction h with
  | start => cases hr
  | call op _ _ ih =>
    rw [effects_append]
    obtain ⟨d, hd, hdr⟩ := ih (by simpa using hr)
    exact ⟨d, List.mem_append_left _ hd, hdr⟩
  | effect _ _ _ ih =>
    rw [effects_append]
    obtain ⟨d, hd, hdr⟩ := ih (by simpa using hr)
    exact ⟨d, List.mem_append_left _ hd, hdr⟩
  | @ret _ d _ hd ih =>
    rw [effects_append]
    rcases List.mem_append.mp (events_append ▸ hr) with hr | hr
    · obtain ⟨d, hd, hdr⟩ := ih hr
      exact ⟨d, List.mem_append_left _ hd, hdr⟩
    · obtain ⟨rfl, rfl⟩ := Event.ret.inj (List.mem_singleton.mp hr)
      exact ⟨d, List.mem_append_left _ hd, rfl, rfl⟩

/-- An operation is called once. -/
theorem Timed.call_inj (h : Timed m) {i : ι} {op op' : ω} (hop : .call i op ∈ events m)
    (hop' : .call i op' ∈ events m) : op = op' := by
  induction h with
  | start => cases hop
  | @call m j op₁ _ hnew ih =>
    rw [events_append, List.mem_append] at hop hop'
    rcases hop with hop | hop <;> rcases hop' with hop' | hop'
    · exact ih hop hop'
    · obtain ⟨rfl, -⟩ := Event.call.inj (List.mem_singleton.mp hop')
      exact absurd hop (hnew op)
    · obtain ⟨rfl, -⟩ := Event.call.inj (List.mem_singleton.mp hop)
      exact absurd hop' (hnew op')
    · obtain ⟨-, rfl⟩ := Event.call.inj (List.mem_singleton.mp hop)
      obtain ⟨-, rfl⟩ := Event.call.inj (List.mem_singleton.mp hop')
      rfl
  | effect _ _ _ ih => exact ih (by simpa using hop) (by simpa using hop')
  | ret _ _ ih => exact ih (by simpa using hop) (by simpa using hop')

/-- What returned before an operation was called took effect before it. -/
theorem Timed.realTime (h : Timed m) {i : ι} {r : ρ} {d' : Done ι ω ρ} (hd' : d' ∈ effects m)
    (hsub : [.ret i r, .call d'.id d'.op].Sublist (events m)) :
    ∃ d, d.id = i ∧ [d, d'].Sublist (effects m) := by
  induction h with
  | start => cases hd'
  | @call m j op h hnew ih =>
    have hd : d' ∈ effects m := by simpa using hd'
    rcases pair_sublist_concat.mp (events_append ▸ hsub) with hsub | ⟨-, heq⟩
    · simpa using ih hd hsub
    · -- an operation that has taken effect was called before
      obtain ⟨rfl, rfl⟩ := Event.call.inj heq
      exact absurd (h.called d' hd) (hnew d'.op)
  | @effect m d h hcall hnew ih =>
    have hsub' : [.ret i r, .call d'.id d'.op].Sublist (events m) := by simpa using hsub
    rw [effects_append]
    rcases List.mem_append.mp (effects_append ▸ hd') with hd' | hd'
    · obtain ⟨e, he, hord⟩ := ih hd' hsub'
      exact ⟨e, he, hord.trans (List.sublist_append_left _ _)⟩
    · obtain ⟨e, he, hei, -⟩ := h.returned (hsub'.subset List.mem_cons_self)
      exact ⟨e, hei, pair_sublist_concat.mpr (.inr ⟨he, List.mem_singleton.mp hd'⟩)⟩
  | @ret m d h hd ih =>
    have hsub' := (pair_sublist_concat.mp (events_append ▸ hsub)).resolve_right fun h => by simp at h
    simpa using ih (by simpa using hd') hsub'

/-- When an effect is always what the object does then, the history is linearizable. -/
theorem Timed.linearization {obj : A → ω → A × ρ} {a : A} (h : Timed m)
    (hseq : Sequential obj a (effects m)) : Linearization obj a (events m) (effects m) where
  once := h.once
  called := h.called
  returned _ _ := h.returned
  sequential := hseq
  realTime _ _ _ hd' hsub := h.realTime hd' hsub

/-! ## Several at once -/

section Lists

variable {α : Type*} {l : List α}

@[simp] theorem events_map_event (e : α → Event ι ω ρ) :
    events (l.map fun x => Mark.event (e x)) = l.map e := by
  induction l with
  | nil => rfl
  | cons x l ih => simp [ih]

@[simp] theorem effects_map_event (e : α → Event ι ω ρ) :
    effects (l.map fun x => Mark.event (e x)) = [] := by
  induction l with
  | nil => rfl
  | cons x l ih => simp [ih]

@[simp] theorem events_map_effect (l : List (Done ι ω ρ)) : events (l.map Mark.effect) = [] := by
  induction l with
  | nil => rfl
  | cons d l ih => simp [ih]

@[simp] theorem effects_map_effect (l : List (Done ι ω ρ)) : effects (l.map Mark.effect) = l := by
  induction l with
  | nil => rfl
  | cons d l ih => simp [ih]

/-- Operations that are called together. -/
theorem Timed.calls (h : Timed m) (i : α → ι) (op : α → ω) (hnodup : (l.map i).Nodup)
    (hnew : ∀ x ∈ l, ∀ op', .call (i x) op' ∉ events m) :
    Timed (m ++ l.map fun x => .event (.call (i x) (op x))) := by
  induction l using List.reverseRecOn with
  | nil => simpa using h
  | append_singleton l x ih =>
    rw [List.map_append, List.nodup_append] at hnodup
    obtain ⟨hl, -, hdisj⟩ := hnodup
    have hprev := ih hl fun y hy => hnew y (List.mem_append_left _ hy)
    rw [List.map_append, ← List.append_assoc]
    refine hprev.call (op x) fun op' hmem => ?_
    rw [events_append, events_map_event, List.mem_append] at hmem
    rcases hmem with hmem | hmem
    · exact hnew x (by simp) op' hmem
    · obtain ⟨y, hy, heq⟩ := List.mem_map.mp hmem
      obtain ⟨hid, -⟩ := Event.call.inj heq
      exact hdisj _ (List.mem_map_of_mem hy) _ (by simp) hid

/-- Operations that take effect together. -/
theorem Timed.takeEffect {l : List (Done ι ω ρ)} (h : Timed m) (hnodup : (l.map Done.id).Nodup)
    (hcall : ∀ d ∈ l, .call d.id d.op ∈ events m)
    (hnew : ∀ d ∈ l, d.id ∉ (effects m).map Done.id) : Timed (m ++ l.map .effect) := by
  induction l using List.reverseRecOn with
  | nil => simpa using h
  | append_singleton l d ih =>
    rw [List.map_append, List.nodup_append] at hnodup
    obtain ⟨hl, -, hdisj⟩ := hnodup
    have hprev := ih hl (fun d' hd' => hcall d' (List.mem_append_left _ hd'))
      fun d' hd' => hnew d' (List.mem_append_left _ hd')
    rw [List.map_append, ← List.append_assoc]
    refine hprev.effect ?_ ?_
    · rw [events_append]
      exact List.mem_append_left _ (hcall d (by simp))
    · rw [effects_append, effects_map_effect, List.map_append, List.mem_append]
      rintro (hmem | hmem)
      · exact hnew d (by simp) hmem
      · exact hdisj _ hmem _ (by simp) rfl

/-- Operations that return together. -/
theorem Timed.rets (h : Timed m) (i : α → ι) (r : α → ρ)
    (hd : ∀ x ∈ l, ∃ d ∈ effects m, d.id = i x ∧ d.result = r x) :
    Timed (m ++ l.map fun x => .event (.ret (i x) (r x))) := by
  induction l using List.reverseRecOn with
  | nil => simpa using h
  | append_singleton l x ih =>
    have hprev := ih fun y hy => hd y (List.mem_append_left _ hy)
    obtain ⟨d, hdm, hid, hr⟩ := hd x (by simp)
    rw [List.map_append, ← List.append_assoc, List.map_singleton, ← hid, ← hr]
    refine hprev.ret (d := d) ?_
    rw [effects_append]
    exact List.mem_append_left _ hdm

end Lists

end Kit
