import MpiToShmem.Mdhim.Requests

/-!
# Cursor operations

`mdhimGet` with `MDHIM_GET_FIRST`, `NEXT`, `PREV` and `LAST`, for integer keys. The client picks a
slice from the statistics of its last stat flush, and sends the request to the server of that slice,
which moves a cursor over its own database.

`pickStat_spec`: the four loops over the statistics find the extreme entry among those that qualify.
-/

namespace MpiToShmem

open Kit

/-! ## Slices from the statistics -/

section Pick

variable {S : Type} (among : ℤ → Prop) (better : ℤ → ℤ → Prop) [DecidablePred among]
  [DecidableRel better]

/-- A loop over the statistics that keeps the best entry among those that qualify. -/
def pickStat (stats : List (MdhimStat S)) : Option (MdhimStat S) :=
  stats.foldl (fun best stat =>
    match best with
    | none => if among stat.key then some stat else none
    | some b => if among stat.key ∧ better stat.key b.key then some stat else some b) none

/-- `get_next_slice_stat`. -/
def getNextSliceStat (stats : List (MdhimStat S)) (sliceNum : ℤ) : Option (MdhimStat S) :=
  pickStat (fun key => key > sliceNum) (fun a b => a < b) stats

/-- `get_prev_slice_stat`. -/
def getPrevSliceStat (stats : List (MdhimStat S)) (sliceNum : ℤ) : Option (MdhimStat S) :=
  pickStat (fun key => key < sliceNum) (fun a b => a > b) stats

/-- `get_last_slice_stat`. -/
def getLastSliceStat (stats : List (MdhimStat S)) : Option (MdhimStat S) :=
  pickStat (fun _ => True) (fun a b => a > b) stats

/-- `get_first_slice_stat`. -/
def getFirstSliceStat (stats : List (MdhimStat S)) : Option (MdhimStat S) :=
  pickStat (fun _ => True) (fun a b => a < b) stats

variable {among better} {stats : List (MdhimStat S)}

theorem pickStat_concat (stat : MdhimStat S) : pickStat among better (stats ++ [stat]) =
    match pickStat among better stats with
    | none => if among stat.key then some stat else none
    | some b => if among stat.key ∧ better stat.key b.key then some stat else some b := by
  rw [pickStat, List.foldl_append]
  rfl

/-- The entry that is picked qualifies, and none that qualifies is better; one is picked if any
qualifies. -/
theorem pickStat_spec (hirrefl : ∀ a, ¬ better a a)
    (htrans : ∀ a b c, better a b → ¬ better c b → ¬ better c a) :
    match pickStat among better stats with
    | none => ∀ stat ∈ stats, ¬ among stat.key
    | some best => best ∈ stats ∧ among best.key ∧
        ∀ stat ∈ stats, among stat.key → ¬ better stat.key best.key := by
  induction stats using List.reverseRecOn with
  | nil => exact fun stat h => by cases h
  | append_singleton stats stat ih =>
    rw [pickStat_concat]
    cases hp : pickStat among better stats with
    | none =>
      rw [hp] at ih
      dsimp only at ih ⊢
      by_cases hs : among stat.key
      · rw [if_pos hs]
        refine ⟨by simp, hs, fun e he hae => ?_⟩
        rcases List.mem_append.mp he with he | he
        · exact absurd hae (ih e he)
        · rw [List.mem_singleton.mp he]
          exact hirrefl _
      · rw [if_neg hs]
        intro e he
        rcases List.mem_append.mp he with he | he
        · exact ih e he
        · rwa [List.mem_singleton.mp he]
    | some best =>
      rw [hp] at ih
      obtain ⟨hmem, hbest, hmin⟩ := ih
      dsimp only
      by_cases hs : among stat.key ∧ better stat.key best.key
      · rw [if_pos hs]
        refine ⟨by simp, hs.1, fun e he hae => ?_⟩
        rcases List.mem_append.mp he with he | he
        · exact htrans _ _ _ hs.2 (hmin e he hae)
        · rw [List.mem_singleton.mp he]
          exact hirrefl _
      · rw [if_neg hs]
        refine ⟨List.mem_append_left _ hmem, hbest, fun e he hae => ?_⟩
        rcases List.mem_append.mp he with he | he
        · exact hmin e he hae
        · rw [List.mem_singleton.mp he] at hae ⊢
          exact fun hb => hs ⟨hae, hb⟩

theorem getNextSliceStat_spec (sliceNum : ℤ) :
    match getNextSliceStat stats sliceNum with
    | none => ∀ stat ∈ stats, stat.key ≤ sliceNum
    | some best => best ∈ stats ∧ sliceNum < best.key ∧
        ∀ stat ∈ stats, sliceNum < stat.key → best.key ≤ stat.key := by
  have h := @pickStat_spec S (fun key => key > sliceNum) (fun a b => a < b) _ _ stats
    (fun _ => lt_irrefl _) (fun _ _ _ h₁ h₂ => by omega)
  unfold getNextSliceStat
  split <;> simp_all

theorem getPrevSliceStat_spec (sliceNum : ℤ) :
    match getPrevSliceStat stats sliceNum with
    | none => ∀ stat ∈ stats, sliceNum ≤ stat.key
    | some best => best ∈ stats ∧ best.key < sliceNum ∧
        ∀ stat ∈ stats, stat.key < sliceNum → stat.key ≤ best.key := by
  have h := @pickStat_spec S (fun key => key < sliceNum) (fun a b => a > b) _ _ stats
    (fun _ => lt_irrefl _) (fun _ _ _ h₁ h₂ => by omega)
  unfold getPrevSliceStat
  split <;> simp_all

theorem getFirstSliceStat_spec :
    match getFirstSliceStat stats with
    | none => stats = []
    | some best => best ∈ stats ∧ ∀ stat ∈ stats, best.key ≤ stat.key := by
  have h := @pickStat_spec S (fun _ => True) (fun a b => a < b) _ _ stats
    (fun _ => lt_irrefl _) (fun _ _ _ h₁ h₂ => by omega)
  unfold getFirstSliceStat
  split <;> simp_all [List.eq_nil_iff_forall_not_mem]

theorem getLastSliceStat_spec :
    match getLastSliceStat stats with
    | none => stats = []
    | some best => best ∈ stats ∧ ∀ stat ∈ stats, stat.key ≤ best.key := by
  have h := @pickStat_spec S (fun _ => True) (fun a b => a > b) _ _ stats
    (fun _ => lt_irrefl _) (fun _ _ _ h₁ h₂ => by omega)
  unfold getLastSliceStat
  split <;> simp_all [List.eq_nil_iff_forall_not_mem]

end Pick

/-- The operations that move a cursor. -/
inductive CursorOp where
  | next | prev | first | last
deriving DecidableEq

/-- `MDHIM_GET_NEXT`, `PREV`, `FIRST` and `LAST`. -/
def CursorOp.code : CursorOp → ℤ
  | next => 1
  | prev => 2
  | first => 3
  | last => 4

/-- What the server makes of the message. -/
def CursorOp.message {K : Type} (key : Option K) : CursorOp → GetOp K
  | next => .next key
  | prev => .prev key
  | first => .first
  | last => .last

/-- The slice of an entry that was found, and slice 0 if none was. -/
def foundSlice (stat : Option (MdhimStat ℕ)) : ℤ :=
  match stat with
  | some stat => stat.key
  | none => 0

/-- `get_slice_from_istat`. -/
def getSliceFromIstat (stats : List (MdhimStat ℕ)) (curSlice : ℤ) (istat : ℕ) (op : CursorOp) : ℤ :=
  if stats = [] then 0
  else
    let curStat := HashTable.find MdhimStat.key stats curSlice
    match op with
    | .next =>
      if ∃ stat ∈ curStat, stat.max > istat then curSlice
      else foundSlice (getNextSliceStat stats curSlice)
    | .prev =>
      if ∃ stat ∈ curStat, stat.min < istat then curSlice
      else foundSlice (getPrevSliceStat stats curSlice)
    | .first => foundSlice (getFirstSliceStat stats)
    | .last => foundSlice (getLastSliceStat stats)

variable {o : IntOptions}

/-- `get_range_server_from_stats`. -/
def getRangeServerFromStats (md : Mdhim) (stats : List (MdhimStat ℕ)) (key : Option (IntKey o))
    (op : CursorOp) : Option RangesrvInfo :=
  if stats = [] then none
  else
    let bySlice (sliceNum : ℤ) : Option RangesrvInfo :=
      if sliceNum = mdhimError then none else getRangeServerBySlice md sliceNum
    match key with
    | some key =>
      let curSlice := getSliceNum md.opts (some (keyBytes key))
      if curSlice = mdhimError then none else bySlice (getSliceFromIstat stats curSlice key op)
    | none =>
      if op ≠ .first ∧ op ≠ .last then none else bySlice (getSliceFromIstat stats 0 0 op)

/-- `mdhimGet` with one of these operations. Without a server it logs what the key pointer points to
and returns a reply of zeros. `none` is a call that gets no reply. -/
def mdhimGetCursor (md : Mdhim) (stats : List (MdhimStat ℕ))
    (servers : ℕ → RangeServer (IntKey o) ℕ) (key : Option (IntKey o)) (op : CursorOp) :
    Option (GetReply (IntKey o)) :=
  match getRangeServerFromStats md stats key op with
  | none => key.map fun _ => ⟨mdhimSuccess, none, none⟩
  | some ri =>
    let gm : Getm := ⟨3, ri.rank, 0, op.code, (key.map keyBytes).getD [], 1⟩
    let grm := rangeServerGet true (servers ri.rank) (op.message key)
    if md.mdhimRank = ri.rank then some grm
    else if (packGetMessage gm).isSome ∧ (Reply.getrm grm).packs (intKeyspace (o := o) md) ri.rank
      then some grm
    else none

/-- A cursor that starts with `op` and goes on with `MDHIM_GET_NEXT` from the key just returned,
until a reply has no key: the keys on the way. `none` is a call without a reply, or no end within
`n` calls. -/
def traverse {K : Type} (get : Option K → CursorOp → Option (GetReply K)) :
    ℕ → Option K → CursorOp → Option (List K)
  | 0, _, _ => none
  | n + 1, key, op => do
    let grm ← get key op
    match grm.key with
    | none => return []
    | some k => return k :: (← traverse get n (some k) .next)

end MpiToShmem
