import Mathlib.Algebra.Order.BigOperators.Group.Finset
import Mathlib.Data.List.GetD
import Mathlib.Logic.Function.Basic
import MpiToShmem.Kit.Bytes
import MpiToShmem.Kit.Runs

/-!
# Programs over one-sided memory

Processing elements with memory of their own. Each has a list of operations to run: it copies within
its memory, puts bytes into the memory of another or gets them from there, and waits at barriers.
What was put is in flight until it lands; nobody passes a barrier before all are there and nothing is
in flight.

1. `Ptr`, `read`, `write`: memory in regions, some of them of a fixed size.
2. `Op`, `World`, `step`: an access outside its region has no meaning, so its step is not possible.
3. `exists_run_done`: programs with the same number of barriers can be run to their end;
   `count_barrier_of_idle`: without one of the elements no barrier is passed.
4. `Spreads`, `zeroOutside_step`: where bytes that are not zero can get to.
-/

namespace Kit.OneSided

/-! ## Memory -/

/-- A place in memory: a region and an offset in it. -/
structure Ptr (ρ : Type) where
  region : ρ
  offset : ℤ
deriving DecidableEq

abbrev Mem (ρ : Type) := Ptr ρ → UInt8

variable {ρ : Type}

instance : HAdd (Ptr ρ) ℤ (Ptr ρ) := ⟨fun p i => ⟨p.region, p.offset + i⟩⟩

@[simp] theorem add_region (p : Ptr ρ) (i : ℤ) : (p + i).region = p.region := rfl

@[simp] theorem add_offset (p : Ptr ρ) (i : ℤ) : (p + i).offset = p.offset + i := rfl

theorem add_add (p : Ptr ρ) (i j : ℤ) : p + i + j = p + (i + j) := by
  show Ptr.mk _ _ = Ptr.mk _ _
  rw [add_offset, Int.add_assoc]
  rfl

theorem add_zero_ptr (p : Ptr ρ) : p + (0 : ℤ) = p := by
  show Ptr.mk _ _ = p
  rw [Int.add_zero]

/-- One of the `n` places from `p` on. -/
def Ptr.Covers (p : Ptr ρ) (n : ℤ) (q : Ptr ρ) : Prop :=
  q.region = p.region ∧ p.offset ≤ q.offset ∧ q.offset < p.offset + n

def read (m : Mem ρ) (p : Ptr ρ) (n : ℤ) : List UInt8 :=
  (List.range n.toNat).map fun i : ℕ => m (p + (i : ℤ))

variable {m m' : Mem ρ} {p q : Ptr ρ} {n : ℤ} {bs : List UInt8}

theorem covers_iff : p.Covers n q ↔ ∃ i : ℕ, (i : ℤ) < n ∧ q = p + (i : ℤ) := by
  constructor
  · rintro ⟨hr, hle, hlt⟩
    refine ⟨(q.offset - p.offset).toNat, by omega, ?_⟩
    cases q
    cases p
    dsimp only at hr hle hlt
    subst hr
    show Ptr.mk _ _ = Ptr.mk _ _
    congr 1
    dsimp only
    omega
  · rintro ⟨i, hi, rfl⟩
    refine ⟨rfl, ?_, ?_⟩
    · rw [add_offset]
      omega
    · rw [add_offset]
      omega

theorem covers_toNat (h : p.Covers n.toNat q) : p.Covers n q := by
  obtain ⟨hr, hle, hlt⟩ := h
  exact ⟨hr, hle, by omega⟩

theorem length_read : (read m p n).length = n.toNat := by
  unfold read
  rw [List.length_map, List.length_range]

theorem getElem_read {i : ℕ} (h : i < (read m p n).length) : (read m p n)[i] = m (p + (i : ℤ)) := by
  simp only [read, List.getElem_map, List.getElem_range]

theorem mem_read {b : UInt8} : b ∈ read m p n ↔ ∃ i : ℕ, (i : ℤ) < n ∧ m (p + (i : ℤ)) = b := by
  unfold read
  rw [List.mem_map]
  refine exists_congr fun i => and_congr_left fun _ => ?_
  rw [List.mem_range]
  omega

/-- The bytes of a place are those of its beginning and those behind it. -/
theorem read_add {k : ℤ} (hn : 0 ≤ n) (hk : 0 ≤ k) :
    read m p (n + k) = read m p n ++ read m (p + n) k := by
  unfold read
  rw [Int.toNat_add hn hk, List.range_add, List.map_append, List.map_map]
  congr 1
  apply List.map_congr_left
  intro i _
  show m (p + ((n.toNat + i : ℕ) : ℤ)) = m (p + n + (i : ℤ))
  rw [add_add, Nat.cast_add, Int.toNat_of_nonneg hn]

/-- The bytes of blocks behind each other are the bytes of one after the other. -/
theorem read_mul (hn : 0 ≤ n) (k : ℕ) :
    read m p (n * k) = (List.range k).flatMap fun j : ℕ => read m (p + (n * (j : ℤ))) n := by
  induction k with
  | zero =>
    rw [Nat.cast_zero, mul_zero]
    rfl
  | succ k ih =>
    have hk : 0 ≤ n * (k : ℤ) := Int.mul_nonneg hn (by omega)
    rw [Nat.cast_succ, mul_add, mul_one, read_add hk hn, ih, List.range_succ, List.flatMap_append,
      List.flatMap_singleton]

theorem read_congr (h : ∀ q, p.Covers n q → m q = m' q) : read m p n = read m' p n := by
  unfold read
  apply List.map_congr_left
  intro i hi
  have hi := List.mem_range.mp hi
  exact h _ (covers_iff.mpr ⟨i, by omega, rfl⟩)

theorem read_eq_read {p' : Ptr ρ} :
    read m p n = read m' p' n ↔ ∀ i : ℕ, (i : ℤ) < n → m (p + (i : ℤ)) = m' (p' + (i : ℤ)) := by
  unfold read
  rw [List.map_inj_left]
  refine forall_congr' fun i => ?_
  rw [List.mem_range]
  exact ⟨fun h hi => h (by omega), fun h hi => h (by omega)⟩

variable [DecidableEq ρ]

instance (p : Ptr ρ) (n : ℤ) (q : Ptr ρ) : Decidable (p.Covers n q) :=
  inferInstanceAs (Decidable (_ ∧ _))

def write (m : Mem ρ) (p : Ptr ρ) (bs : List UInt8) : Mem ρ := fun q =>
  if q.region = p.region ∧ p.offset ≤ q.offset then bs.getD (q.offset - p.offset).toNat (m q)
  else m q

theorem write_of_not_covers (h : ¬ p.Covers bs.length q) : write m p bs q = m q := by
  unfold write
  split_ifs with hq
  · apply List.getD_eq_default
    by_contra hlt
    exact h ⟨hq.1, hq.2, by omega⟩
  · rfl

theorem write_add (i : ℕ) (h : i < bs.length) : write m p bs (p + (i : ℤ)) = bs[i] := by
  unfold write
  rw [if_pos ⟨rfl, by rw [add_offset]; omega⟩]
  have hi : ((p + (i : ℤ)).offset - p.offset).toNat = i := by
    rw [add_offset]
    omega
  rw [hi, List.getD_eq_getElem _ _ h]

/-- A place that was written has a byte of what was written there, another its old one. -/
theorem write_read (m₀ : Mem ρ) (src : Ptr ρ) (i : ℕ) (h : (i : ℤ) < n) :
    write m p (read m₀ src n) (p + (i : ℤ)) = m₀ (src + (i : ℤ)) := by
  have hi : i < (read m₀ src n).length := by
    rw [length_read]
    omega
  rw [write_add i hi, getElem_read]

theorem write_read_of_not_covers (m₀ : Mem ρ) (src : Ptr ρ) (h : ¬ p.Covers n q) :
    write m p (read m₀ src n) q = m q := by
  apply write_of_not_covers
  rw [length_read]
  exact fun hc => h (covers_toNat hc)

theorem write_nil : write m p [] = m := by
  funext q
  apply write_of_not_covers
  rintro ⟨-, hle, hlt⟩
  exact absurd hlt (by simpa using hle)

theorem write_read_zero (m₀ : Mem ρ) (src : Ptr ρ) : write m p (read m₀ src 0) = m := write_nil

/-! ## Operations -/

/-- How many elements there are, and how large their regions. -/
structure Machine (ρ : Type) where
  npes : ℕ
  size : ρ → Option ℤ

/-- What a waiting element expects: a number, or what its own memory holds. -/
inductive Expected (ρ : Type) where
  | lit (z : ℤ)
  | own (src : Ptr ρ)
deriving DecidableEq

inductive Op (ρ : Type) where
  | copy (dst src : Ptr ρ) (n : ℤ)
  | put (pe : ℕ) (dst src : Ptr ρ) (n : ℤ)
  | putInt (pe : ℕ) (dst : Ptr ρ) (z : ℤ)
  | get (pe : ℕ) (dst src : Ptr ρ) (n : ℤ)
  | await (pe : ℕ) (cell : Ptr ρ) (width : ℕ) (expected : Expected ρ)
  | barrier
deriving DecidableEq

/-- The `n` bytes at `p` are in the region. -/
def Machine.Inside (M : Machine ρ) (p : Ptr ρ) (n : ℤ) : Prop :=
  n = 0 ∨ 0 ≤ n ∧ ∀ b ∈ M.size p.region, 0 ≤ p.offset ∧ p.offset + n ≤ b

instance (M : Machine ρ) (p : Ptr ρ) (n : ℤ) : Decidable (M.Inside p n) :=
  inferInstanceAs (Decidable (_ ∨ _))

/-- All accesses of the operation have a meaning. -/
def Op.Ok (M : Machine ρ) : Op ρ → Prop
  | copy dst src n => M.Inside dst n ∧ M.Inside src n
  | put pe dst src n => pe < M.npes ∧ M.Inside dst n ∧ M.Inside src n
  | putInt pe dst _ => pe < M.npes ∧ M.Inside dst 4
  | get pe dst src n => pe < M.npes ∧ M.Inside dst n ∧ M.Inside src n
  | await pe cell width _ => pe < M.npes ∧ M.Inside cell width
  | barrier => True

instance (M : Machine ρ) : (op : Op ρ) → Decidable (op.Ok M)
  | .copy _ _ _ | .put _ _ _ _ | .putInt _ _ _ | .get _ _ _ _ | .await _ _ _ _ =>
    inferInstanceAs (Decidable (_ ∧ _))
  | .barrier => isTrue trivial

def Op.isBarrier : Op ρ → Bool
  | barrier => true
  | _ => false

def Op.isAwait : Op ρ → Bool
  | await _ _ _ _ => true
  | _ => false

/-! ## The machine -/

/-- Bytes on their way to an element. -/
structure Put (ρ : Type) where
  pe : ℕ
  dst : Ptr ρ
  bytes : List UInt8
deriving DecidableEq

/-- The memory of the elements, what they have left to run, and what is in flight; `stored` records
which places have been written. -/
structure World (ρ : Type) where
  mem : ℕ → Mem ρ
  prog : ℕ → List (Op ρ)
  flight : List (Put ρ)
  stored : ℕ → Ptr ρ → Bool

namespace World

/-- The element's memory is written. -/
def store (w : World ρ) (pe : ℕ) (p : Ptr ρ) (bs : List UInt8) : World ρ :=
  { w with
    mem := Function.update w.mem pe (write (w.mem pe) p bs)
    stored := Function.update w.stored pe fun q => w.stored pe q || p.Covers bs.length q }

def send (w : World ρ) (p : Put ρ) : World ρ := { w with flight := w.flight ++ [p] }

def expects (w : World ρ) (pe width : ℕ) : Expected ρ → ℤ
  | .lit z => z
  | .own src => leInt (read (w.mem pe) src width)

/-- What an operation does; a waiting element compares an `int`. -/
def act (w : World ρ) (pe : ℕ) : Op ρ → Option (World ρ)
  | .copy dst src n => some (w.store pe dst (read (w.mem pe) src n))
  | .put t dst src n => some (w.send ⟨t, dst, read (w.mem pe) src n⟩)
  | .putInt t dst z => some (w.send ⟨t, dst, encodeInt z⟩)
  | .get t dst src n => some (w.store pe dst (read (w.mem t) src n))
  | .await t cell width e =>
    if wrapInt (leInt (read (w.mem t) cell width)) = w.expects pe width e then some w else none
  | .barrier => none

def atBarrier (w : World ρ) (pe : ℕ) : Bool := (w.prog pe).head?.any Op.isBarrier

end World

theorem prog_act {w w' : World ρ} {pe : ℕ} {op : Op ρ} (h : w.act pe op = some w') :
    w'.prog = w.prog := by
  cases op with
  | barrier => cases h
  | await t cell width e =>
    dsimp only [World.act] at h
    split_ifs at h
    obtain rfl := Option.some.inj h
    rfl
  | _ =>
    obtain rfl := Option.some.inj h
    rfl

inductive Label where
  | run (pe : ℕ)
  | land (k : ℕ)
  | barrier
deriving DecidableEq

def step (M : Machine ρ) (w : World ρ) : Label → Option (World ρ)
  | .run pe =>
    match w.prog pe with
    | [] => none
    | op :: rest =>
      if pe < M.npes ∧ op.Ok M then
        (w.act pe op).map fun w => { w with prog := Function.update w.prog pe rest }
      else none
  | .land k =>
    (w.flight[k]?).map fun p => { w with flight := w.flight.eraseIdx k }.store p.pe p.dst p.bytes
  | .barrier =>
    if (∀ pe < M.npes, w.atBarrier pe) ∧ w.flight = [] then
      some { w with prog := fun pe => if pe < M.npes then (w.prog pe).tail else w.prog pe }
    else none

/-- Everything has been run. -/
def World.Done (w : World ρ) : Prop := (∀ pe, w.prog pe = []) ∧ w.flight = []

variable {M : Machine ρ} {w w' : World ρ} {ls : List Label}

theorem step_run_eq_some {pe : ℕ} (h : step M w (.run pe) = some w') :
    ∃ op rest w₁, w.prog pe = op :: rest ∧ pe < M.npes ∧ op.Ok M ∧ w.act pe op = some w₁ ∧
      w' = { w₁ with prog := Function.update w.prog pe rest } := by
  unfold step at h
  dsimp only at h
  split at h
  · cases h
  · rename_i op rest hprog
    split_ifs at h with hok
    obtain ⟨w₁, hact, rfl⟩ := Option.map_eq_some_iff.mp h
    refine ⟨op, rest, w₁, hprog, hok.1, hok.2, hact, ?_⟩
    have hsame : w₁.prog = w.prog := prog_act hact
    rw [hsame]

theorem step_land_eq_some {k : ℕ} (h : step M w (.land k) = some w') :
    ∃ p, w.flight[k]? = some p ∧
      w' = { w with flight := w.flight.eraseIdx k }.store p.pe p.dst p.bytes := by
  obtain ⟨p, hp, rfl⟩ := Option.map_eq_some_iff.mp h
  exact ⟨p, hp, rfl⟩

theorem step_barrier_eq_some (h : step M w .barrier = some w') :
    (∀ pe < M.npes, w.atBarrier pe = true) ∧ w.flight = [] ∧
      w' = { w with prog := fun pe => if pe < M.npes then (w.prog pe).tail else w.prog pe } := by
  unfold step at h
  dsimp only at h
  split_ifs at h with hb
  exact ⟨hb.1, hb.2, (Option.some.inj h).symm⟩

/-- A step leaves an end of every program. -/
theorem prog_suffix {a : Label} (h : step M w a = some w') (pe : ℕ) : w'.prog pe <:+ w.prog pe := by
  cases a with
  | run i =>
    obtain ⟨op, rest, w₁, hprog, -, -, -, rfl⟩ := step_run_eq_some h
    by_cases hi : pe = i
    · subst hi
      dsimp only
      rw [Function.update_self, hprog]
      exact List.suffix_cons op rest
    · have hsame : Function.update w.prog i rest pe = w.prog pe := Function.update_of_ne hi _ _
      exact ⟨[], hsame⟩
  | land k =>
    obtain ⟨p, -, rfl⟩ := step_land_eq_some h
    exact List.suffix_rfl
  | barrier =>
    obtain ⟨-, -, rfl⟩ := step_barrier_eq_some h
    dsimp only
    split_ifs
    · exact List.tail_suffix _
    · exact List.suffix_rfl

theorem isBarrier_of_act {pe : ℕ} {op : Op ρ} (h : w.act pe op = some w') :
    op.isBarrier = false := by
  cases op with
  | barrier => cases h
  | _ => rfl

/-! ## Runs to the end -/

/-- Programs that can be run to their end: every operation has a meaning and does not wait for a
value, and all elements have the same number of barriers left. -/
structure Runnable (M : Machine ρ) (w : World ρ) (b : ℕ) : Prop where
  ok : ∀ pe, ∀ op ∈ w.prog pe, op.Ok M ∧ op.isAwait = false
  barriers : ∀ pe < M.npes, (w.prog pe).countP Op.isBarrier = b
  outside : ∀ pe, M.npes ≤ pe → w.prog pe = []

/-- What is left: operations, counted twice since a put has to land, and what is in flight. -/
def World.left (M : Machine ρ) (w : World ρ) : ℕ :=
  2 * (∑ pe ∈ Finset.range M.npes, (w.prog pe).length) + w.flight.length

/-- An operation that does not wait is done at once, and puts at most one thing into flight. -/
theorem act_isSome {pe : ℕ} {op : Op ρ} (hw : op.isAwait = false) (hb : op.isBarrier = false) :
    ∃ w₁, w.act pe op = some w₁ ∧ w₁.flight.length ≤ w.flight.length + 1 := by
  cases op with
  | barrier => cases hb
  | await => cases hw
  | copy dst src n => exact ⟨_, rfl, Nat.le_succ _⟩
  | get t dst src n => exact ⟨_, rfl, Nat.le_succ _⟩
  | put t dst src n =>
    refine ⟨_, rfl, ?_⟩
    unfold World.send
    rw [List.length_append, List.length_singleton]
  | putInt t dst z =>
    refine ⟨_, rfl, ?_⟩
    unfold World.send
    rw [List.length_append, List.length_singleton]

omit [DecidableEq ρ] in
/-- An element at a barrier. -/
theorem prog_of_atBarrier {pe : ℕ} (h : w.atBarrier pe = true) :
    ∃ rest, w.prog pe = .barrier :: rest := by
  unfold World.atBarrier at h
  cases hp : w.prog pe with
  | nil => rw [hp] at h; cases h
  | cons op rest =>
    rw [hp] at h
    cases op with
    | barrier => exact ⟨rest, rfl⟩
    | _ => cases h

omit [DecidableEq ρ] in
/-- An element that is to run no barrier is not at one. -/
theorem atBarrier_eq_false {pe : ℕ} (h : ∀ op ∈ w.prog pe, op.isBarrier = false) :
    w.atBarrier pe = false := by
  by_contra hat
  obtain ⟨rest, hprog⟩ := prog_of_atBarrier (eq_true_of_ne_false hat)
  cases h .barrier (hprog ▸ List.mem_cons_self)

/-- Every step leaves programs that can be run to their end. -/
theorem Runnable.step {b : ℕ} {a : Label} (h : Runnable M w b) (hs : step M w a = some w') :
    ∃ b', Runnable M w' b' := by
  have hok : ∀ pe, ∀ op ∈ w'.prog pe, op.Ok M ∧ op.isAwait = false :=
    fun pe op hop => h.ok pe op ((prog_suffix hs pe).subset hop)
  have hout : ∀ pe, M.npes ≤ pe → w'.prog pe = [] :=
    fun pe hpe => List.suffix_nil.mp (h.outside pe hpe ▸ prog_suffix hs pe)
  cases a with
  | run pe =>
    obtain ⟨op, rest, w₁, hp, -, -, hact, rfl⟩ := step_run_eq_some hs
    refine ⟨b, hok, fun i hi => ?_, hout⟩
    dsimp only
    rw [← h.barriers i hi]
    by_cases he : i = pe
    · subst he
      rw [Function.update_self, hp, List.countP_cons_of_neg]
      rw [isBarrier_of_act hact]
      exact Bool.false_ne_true
    · rw [Function.update_of_ne he]
  | land k =>
    obtain ⟨p, -, rfl⟩ := step_land_eq_some hs
    exact ⟨b, hok, h.barriers, hout⟩
  | barrier =>
    obtain ⟨hat, -, rfl⟩ := step_barrier_eq_some hs
    refine ⟨b - 1, hok, fun i hi => ?_, hout⟩
    dsimp only
    obtain ⟨rest, hrest⟩ := prog_of_atBarrier (hat i hi)
    have hcount := h.barriers i hi
    rw [hrest, List.countP_cons_of_pos rfl] at hcount
    rw [if_pos hi, hrest]
    exact Nat.eq_sub_of_add_eq hcount

theorem Runnable.run {b pe : ℕ} {op : Op ρ} {rest : List (Op ρ)} (h : Runnable M w b)
    (hp : w.prog pe = op :: rest) (hb : op.isBarrier = false) :
    ∃ w₁, OneSided.step M w (.run pe) = some w₁ ∧ w₁.left M < w.left M := by
  have hpe : pe < M.npes := by
    by_contra hout
    rw [h.outside pe (by omega)] at hp
    cases hp
  obtain ⟨hok, hwait⟩ := h.ok pe op (by rw [hp]; exact List.mem_cons_self)
  obtain ⟨w₁, hact, hflight⟩ := @act_isSome _ _ w pe op hwait hb
  have hprog := prog_act hact
  refine ⟨{ w₁ with prog := Function.update w₁.prog pe rest }, ?_, ?_⟩
  · unfold OneSided.step
    dsimp only
    rw [hp]
    dsimp only
    rw [if_pos ⟨hpe, hok⟩, hact]
    rfl
  · have hsum : ∑ i ∈ Finset.range M.npes, (Function.update w₁.prog pe rest i).length <
        ∑ i ∈ Finset.range M.npes, (w.prog i).length := by
      apply Finset.sum_lt_sum
      · intro i _
        rw [hprog]
        by_cases he : i = pe
        · subst he
          rw [Function.update_self, hp]
          exact Nat.le_succ _
        · rw [Function.update_of_ne he]
      · refine ⟨pe, Finset.mem_range.mpr hpe, ?_⟩
        rw [Function.update_self, hp]
        exact Nat.lt_succ_self _
    unfold World.left
    dsimp only
    omega

theorem exists_land {p : Put ρ} {l : List (Put ρ)} (hf : w.flight = p :: l) :
    ∃ w₁, step M w (.land 0) = some w₁ ∧ w₁.left M < w.left M := by
  refine ⟨{ w with flight := l }.store p.pe p.dst p.bytes, ?_, ?_⟩
  · unfold step
    dsimp only
    rw [hf]
    rfl
  · unfold World.left World.store
    dsimp only
    rw [hf, List.length_cons]
    omega

theorem Runnable.barrier {b pe : ℕ} (h : Runnable M w b) (hf : w.flight = [])
    (hall : ∀ pe, w.prog pe = [] ∨ w.atBarrier pe = true) (hpe : w.prog pe ≠ []) :
    ∃ w₁, OneSided.step M w .barrier = some w₁ ∧ w₁.left M < w.left M := by
  have hlt : pe < M.npes := by
    by_contra hout
    exact hpe (h.outside pe (by omega))
  obtain ⟨rest, hrest⟩ := prog_of_atBarrier ((hall pe).resolve_left hpe)
  have hb : 0 < b := by
    rw [← h.barriers pe hlt, hrest, List.countP_cons_of_pos rfl]
    exact Nat.succ_pos _
  have hat : ∀ i < M.npes, w.atBarrier i = true := by
    intro i hi
    refine (hall i).resolve_left fun hnil => ?_
    have hcount := h.barriers i hi
    rw [hnil, List.countP_nil] at hcount
    omega
  refine ⟨{ w with prog := fun i => if i < M.npes then (w.prog i).tail else w.prog i }, ?_, ?_⟩
  · unfold OneSided.step
    dsimp only
    rw [if_pos ⟨hat, hf⟩]
  · have hsum : ∑ i ∈ Finset.range M.npes,
        (if i < M.npes then (w.prog i).tail else w.prog i).length <
        ∑ i ∈ Finset.range M.npes, (w.prog i).length := by
      apply Finset.sum_lt_sum
      · intro i _
        split_ifs
        · rw [List.length_tail]
          exact Nat.sub_le _ _
        · exact le_rfl
      · refine ⟨pe, Finset.mem_range.mpr hlt, ?_⟩
        rw [if_pos hlt, hrest]
        exact Nat.lt_succ_self _
    unfold World.left
    dsimp only
    omega

theorem exists_run_done {b : ℕ} (h : Runnable M w b) :
    ∃ ls w', exec (step M) w ls = some w' ∧ w'.Done := by
  induction hn : w.left M using Nat.strong_induction_on generalizing w b with
  | _ n ih =>
    have hnext : ∀ {a : Label} {w₁ : World ρ}, step M w a = some w₁ → w₁.left M < w.left M →
        ∃ ls w', exec (step M) w ls = some w' ∧ w'.Done := by
      intro a w₁ hs hlt
      obtain ⟨b₁, h₁⟩ := h.step hs
      obtain ⟨ls, w', hexec, hdone⟩ := ih (w₁.left M) (hn ▸ hlt) h₁ rfl
      exact ⟨a :: ls, w', exec_cons_eq_some.mpr ⟨w₁, hs, hexec⟩, hdone⟩
    by_cases hrun : ∃ pe op rest, w.prog pe = op :: rest ∧ op.isBarrier = false
    · obtain ⟨pe, op, rest, hp, hb⟩ := hrun
      obtain ⟨w₁, hs, hlt⟩ := h.run hp hb
      exact hnext hs hlt
    · have hall : ∀ pe, w.prog pe = [] ∨ w.atBarrier pe = true := by
        intro pe
        cases hp : w.prog pe with
        | nil => exact Or.inl rfl
        | cons op rest =>
          refine Or.inr ?_
          unfold World.atBarrier
          rw [hp]
          by_contra hb
          exact hrun ⟨pe, op, rest, hp, by simpa using hb⟩
      cases hf : w.flight with
      | cons p l =>
        obtain ⟨w₁, hs, hlt⟩ := exists_land hf
        exact hnext hs hlt
      | nil =>
        by_cases hdone : ∀ pe, w.prog pe = []
        · exact ⟨[], w, rfl, hdone, hf⟩
        · obtain ⟨pe, hpe⟩ := not_forall.mp hdone
          obtain ⟨w₁, hs, hlt⟩ := h.barrier hf hall hpe
          exact hnext hs hlt

/-- From every state of a run the end can be reached. -/
theorem exists_run_done_of_run {b : ℕ} (h : Runnable M w b) (hexec : exec (step M) w ls = some w') :
    ∃ ls' w'', exec (step M) w' ls' = some w'' ∧ w''.Done := by
  have hinv : ∃ b', Runnable M w' b' :=
    exec_inv (I := fun u => ∃ b', Runnable M u b') (fun _ _ _ hu hs => hu.elim fun _ hu => hu.step hs)
      ⟨b, h⟩ hexec
  obtain ⟨b', h'⟩ := hinv
  exact exists_run_done h'

/-! ## What a run needs -/

/-- What has been run had a meaning. -/
theorem ok_of_run (h : exec (step M) w ls = some w') {pe : ℕ} (hp : w'.prog pe = []) :
    ∀ op ∈ w.prog pe, op.Ok M := by
  induction ls generalizing w with
  | nil =>
    obtain rfl := Option.some.inj h
    rw [hp]
    exact fun _ ho => absurd ho List.not_mem_nil
  | cons a ls ih =>
    obtain ⟨w₁, hs, h⟩ := exec_cons_eq_some.mp h
    have hrest := ih h
    intro op ho
    cases a with
    | run i =>
      obtain ⟨op', rest, w₂, hprog, -, hok, -, rfl⟩ := step_run_eq_some hs
      by_cases hi : pe = i
      · subst hi
        rw [hprog] at ho
        rcases List.mem_cons.mp ho with rfl | ho
        · exact hok
        · refine hrest op ?_
          dsimp only
          rwa [Function.update_self]
      · refine hrest op ?_
        dsimp only
        rwa [Function.update_of_ne hi]
    | land k =>
      obtain ⟨p, -, rfl⟩ := step_land_eq_some hs
      exact hrest op ho
    | barrier =>
      obtain ⟨hat, -, rfl⟩ := step_barrier_eq_some hs
      by_cases hi : pe < M.npes
      · obtain ⟨rest, hprog⟩ := prog_of_atBarrier (hat pe hi)
        rw [hprog] at ho
        rcases List.mem_cons.mp ho with rfl | ho
        · trivial
        · refine hrest op ?_
          dsimp only
          rwa [if_pos hi, hprog]
      · refine hrest op ?_
        dsimp only
        rwa [if_neg hi]

/-- All elements pass the same barriers. -/
theorem countP_barrier_of_run (h : exec (step M) w ls = some w') (pe : ℕ) :
    (w.prog pe).countP Op.isBarrier =
      (w'.prog pe).countP Op.isBarrier + if pe < M.npes then ls.count .barrier else 0 := by
  induction ls generalizing w with
  | nil =>
    obtain rfl := Option.some.inj h
    rw [List.count_nil, ite_self, add_zero]
  | cons a ls ih =>
    obtain ⟨w₁, hs, hrest⟩ := exec_cons_eq_some.mp h
    have hih := ih hrest
    cases a with
    | run i =>
      obtain ⟨op, rest, w₂, hprog, -, -, hact, rfl⟩ := step_run_eq_some hs
      have hop : op.isBarrier = false := isBarrier_of_act hact
      rw [List.count_cons_of_ne (show Label.run i ≠ .barrier from nofun), ← hih]
      dsimp only
      by_cases hi : pe = i
      · subst hi
        rw [Function.update_self, hprog, List.countP_cons_of_neg]
        rw [hop]
        exact Bool.false_ne_true
      · rw [Function.update_of_ne hi]
    | land k =>
      obtain ⟨p, -, rfl⟩ := step_land_eq_some hs
      rw [List.count_cons_of_ne (show Label.land k ≠ .barrier from nofun)]
      exact hih
    | barrier =>
      obtain ⟨hat, -, rfl⟩ := step_barrier_eq_some hs
      dsimp only at hih
      rw [List.count_cons_self]
      by_cases hpe : pe < M.npes
      · obtain ⟨rest, hprog⟩ := prog_of_atBarrier (hat pe hpe)
        rw [if_pos hpe, hprog, List.tail_cons, if_pos hpe] at hih
        rw [if_pos hpe, hprog, List.countP_cons_of_pos rfl, hih]
        omega
      · rw [if_neg hpe, if_neg hpe] at hih
        rw [if_neg hpe]
        exact hih

/-- As long as one of the elements runs nothing, no barrier is passed. -/
theorem count_barrier_of_idle {idle : ℕ} (hlt : idle < M.npes) (hidle : w.prog idle = [])
    (h : exec (step M) w ls = some w') (pe : ℕ) :
    (w'.prog pe).countP Op.isBarrier = (w.prog pe).countP Op.isBarrier := by
  have hnone := countP_barrier_of_run h idle
  rw [hidle, List.countP_nil, if_pos hlt] at hnone
  rw [countP_barrier_of_run h pe]
  split_ifs <;> omega

/-! ## Where bytes can get to -/

/-- The operation moves bytes from places in `A` to places in `A` only. -/
def Spreads (A : ℕ → Ptr ρ → Prop) (pe : ℕ) : Op ρ → Prop
  | .copy dst src n => ∀ i : ℕ, (i : ℤ) < n → A pe (src + (i : ℤ)) → A pe (dst + (i : ℤ))
  | .put t dst src n => ∀ i : ℕ, (i : ℤ) < n → A pe (src + (i : ℤ)) → A t (dst + (i : ℤ))
  | .get t dst src n => ∀ i : ℕ, (i : ℤ) < n → A t (src + (i : ℤ)) → A pe (dst + (i : ℤ))
  | .putInt t dst _ => ∀ i : ℕ, i < 4 → A t (dst + (i : ℤ))
  | .await _ _ _ _ => True
  | .barrier => True

/-- All that is not zero is in `A`. -/
structure ZeroOutside (A : ℕ → Ptr ρ → Prop) (w : World ρ) : Prop where
  mem : ∀ pe q, ¬ A pe q → w.mem pe q = 0
  flight : ∀ p ∈ w.flight, ∀ (i : ℕ) (h : i < p.bytes.length), ¬ A p.pe (p.dst + (i : ℤ)) →
    p.bytes[i] = 0
  prog : ∀ pe, ∀ op ∈ w.prog pe, Spreads A pe op

variable {A : ℕ → Ptr ρ → Prop}

theorem ZeroOutside.store (h : ZeroOutside A w) {pe : ℕ} {p : Ptr ρ} {bs : List UInt8}
    (hbs : ∀ (i : ℕ) (h : i < bs.length), ¬ A pe (p + (i : ℤ)) → bs[i] = 0) :
    ZeroOutside A (w.store pe p bs) where
  mem i q hq := by
    unfold World.store
    dsimp only
    by_cases hi : i = pe
    · subst hi
      rw [Function.update_self]
      by_cases hc : p.Covers bs.length q
      · obtain ⟨k, hk, rfl⟩ := covers_iff.mp hc
        rw [write_add k (by omega)]
        exact hbs k (by omega) hq
      · rw [write_of_not_covers hc]
        exact h.mem i q hq
    · rw [Function.update_of_ne hi]
      exact h.mem i q hq
  flight := h.flight
  prog := h.prog

omit [DecidableEq ρ] in
theorem ZeroOutside.send (h : ZeroOutside A w) {p : Put ρ}
    (hp : ∀ (i : ℕ) (h : i < p.bytes.length), ¬ A p.pe (p.dst + (i : ℤ)) → p.bytes[i] = 0) :
    ZeroOutside A (w.send p) where
  mem := h.mem
  flight q hq := by
    rcases List.mem_append.mp hq with hq | hq
    · exact h.flight q hq
    · rw [List.mem_singleton.mp hq]
      exact hp
  prog := h.prog

omit [DecidableEq ρ] in
/-- What is read from places outside `A` is zero. -/
theorem ZeroOutside.read (h : ZeroOutside A w) {pe t : ℕ} {dst src : Ptr ρ} {n : ℤ}
    (hsp : ∀ i : ℕ, (i : ℤ) < n → A pe (src + (i : ℤ)) → A t (dst + (i : ℤ))) (i : ℕ)
    (hi : i < (read (w.mem pe) src n).length) (hA : ¬ A t (dst + (i : ℤ))) :
    (OneSided.read (w.mem pe) src n)[i] = 0 := by
  rw [getElem_read]
  rw [length_read] at hi
  exact h.mem pe _ fun hsrc => hA (hsp i (by omega) hsrc)

theorem zeroOutside_step (w : World ρ) (a : Label) (w' : World ρ) (h : ZeroOutside A w)
    (hs : step M w a = some w') : ZeroOutside A w' := by
  have hprog : ∀ pe, ∀ op ∈ w'.prog pe, Spreads A pe op :=
    fun pe op hop => h.prog pe op ((prog_suffix hs pe).subset hop)
  cases a with
  | run pe =>
    obtain ⟨op, rest, w₁, hp, -, -, hact, rfl⟩ := step_run_eq_some hs
    have hsp := h.prog pe op (by rw [hp]; exact List.mem_cons_self)
    have hw₁ : ZeroOutside A w₁ := by
      cases op with
      | barrier => cases hact
      | await t cell width e =>
        dsimp only [World.act] at hact
        split_ifs at hact
        obtain rfl := Option.some.inj hact
        exact h
      | copy dst src n =>
        obtain rfl := Option.some.inj hact
        exact h.store fun i hi hA => h.read hsp i hi hA
      | get t dst src n =>
        obtain rfl := Option.some.inj hact
        exact h.store fun i hi hA => h.read hsp i hi hA
      | put t dst src n =>
        obtain rfl := Option.some.inj hact
        exact h.send fun i hi hA => h.read hsp i hi hA
      | putInt t dst z =>
        obtain rfl := Option.some.inj hact
        refine h.send fun i hi hA => absurd (hsp i ?_) hA
        rwa [length_encodeInt] at hi
    exact ⟨hw₁.mem, hw₁.flight, hprog⟩
  | land k =>
    obtain ⟨p, hp, rfl⟩ := step_land_eq_some hs
    have hmem := List.mem_of_getElem? hp
    have hless : ZeroOutside A { w with flight := w.flight.eraseIdx k } :=
      ⟨h.mem, fun q hq => h.flight q (List.mem_of_mem_eraseIdx hq), h.prog⟩
    exact hless.store (h.flight p hmem)
  | barrier =>
    obtain ⟨-, -, rfl⟩ := step_barrier_eq_some hs
    exact ⟨h.mem, h.flight, hprog⟩

end Kit.OneSided
