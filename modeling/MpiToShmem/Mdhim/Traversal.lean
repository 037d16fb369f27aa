import MpiToShmem.Mdhim.PutRuns
import MpiToShmem.Mdhim.Refinement

/-!
# Cursor traversal

A client asks for the first key and then for the key after the one it has just got. The statistics
lead it to the server with the next key, whose cursor seeks the given key and steps once more: right
if that server holds the given key, one too far if another server does.

1. `getSliceFromIstat_next`: fresh statistics lead to the slice of the next stored key.
2. `get_next_iff`: a call gets the next stored key exactly when that is on the server of the given
   key and fits a reply.
3. `traversal_complete_iff`: the traversal is complete exactly when all keys are on one server and
   every value on another rank fits a reply.
-/

namespace MpiToShmem

open Kit

variable {o : IntOptions} {append : Bool} {md : Mdhim} {size client : ℕ} {job : Job o}
  {stats : List (MdhimStat ℕ)} {k j : IntKey o} {r r' : ℕ}

/-! ## The slice of the next key -/

theorem ValidKey.slice_ne_error (hk : ValidKey k) : (intKeying o).slice k ≠ mdhimError := by
  rw [slice_intKeying hk]
  unfold mdhimError
  have hnonneg := Int.natCast_nonneg ((k : ℕ) / o.maxRecsPerSlice)
  intro he
  rw [he] at hnonneg
  exact absurd hnonneg (by decide)

theorem JobInv.valid (h : JobInv md size job) (hmd : md.opts = o.toMdhimOptions)
    (hk : job.Stored k) : ValidKey k := by
  obtain ⟨r, hk⟩ := hk
  exact (((h.server r).routed k hk).bySlice hmd).1

/-- The stored keys after `k`. -/
def Job.later (job : Job o) (k : IntKey o) : Set (IntKey o) := {i | job.Stored i ∧ k < i}

section Slices

variable (h : JobInv md size job) (hmd : md.opts = o.toMdhimOptions) (hf : Fresh job stats)

include hf in
/-- The greatest key of the entry of a slice is stored, and no stored key of the slice is above. -/
theorem Fresh.find (hk : job.Stored k) : ∃ e,
    HashTable.find MdhimStat.key stats ((intKeying o).slice k) = some e ∧
      (∀ i, job.Stored i → (intKeying o).slice i = (intKeying o).slice k → (i : ℕ) ≤ e.max) ∧
      ∃ i, job.Stored i ∧ (intKeying o).slice i = (intKeying o).slice k ∧ (i : ℕ) = e.max := by
  obtain ⟨e, he, hkey, -⟩ := hf.covers k hk
  refine ⟨e, (HashTable.find_eq_some hf.distinct).mpr ⟨he, hkey⟩, fun i hi hs => ?_, ?_⟩
  · obtain ⟨e', he', hkey', hmax⟩ := hf.covers i hi
    rwa [hf.distinct.eq_of_key_eq he' he (by rw [hkey', hkey, hs])] at hmax
  · obtain ⟨i, hi, hs, hmax⟩ := hf.attained e he
    exact ⟨i, hi, hs.trans hkey, hmax⟩

include h hmd in
theorem slice_le_of_le (hk : job.Stored k) (hj : job.Stored j) (hkj : k ≤ j) :
    (intKeying o).slice k ≤ (intKeying o).slice j :=
  slice_mono (h.valid hmd hk) (h.valid hmd hj) hkj

include h hmd hf in
/-- The statistics lead to the slice of the next stored key. -/
theorem getSliceFromIstat_next (hk : job.Stored k) (hj : IsLeast (job.later k) j) :
    getSliceFromIstat stats ((intKeying o).slice k) k .next = (intKeying o).slice j := by
  obtain ⟨⟨hjs, hkj⟩, hleast⟩ := hj
  obtain ⟨e, hfind, hmax, i, hi, his, hie⟩ := hf.find hk
  have hne : stats ≠ [] := List.ne_nil_of_mem (HashTable.find_some hfind).1
  have hle := slice_le_of_le h hmd hk hjs hkj.le
  simp only [getSliceFromIstat, if_neg hne, hfind, Option.mem_def, Option.some.injEq,
    exists_eq_left']
  by_cases hlt : e.max > k
  · -- the slice of `k` goes on, and `j` is in it
    rw [if_pos hlt]
    have hki : k < i := by
      show (k : ℕ) < i
      omega
    have hji := slice_le_of_le h hmd hjs hi (hleast ⟨hi, hki⟩)
    omega
  · rw [if_neg hlt]
    have hslice : (intKeying o).slice k < (intKeying o).slice j := by
      refine lt_of_le_of_ne hle fun hs => ?_
      have hjmax := hmax j hjs hs.symm
      have hkj' : (k : ℕ) < j := hkj
      omega
    have hspec := @getNextSliceStat_spec _ stats ((intKeying o).slice k)
    obtain ⟨ej, hej, hkey, -⟩ := hf.covers j hjs
    cases hn : getNextSliceStat stats ((intKeying o).slice k) with
    | none =>
      rw [hn] at hspec
      have := hspec ej hej
      omega
    | some best =>
      rw [hn] at hspec
      obtain ⟨hbest, hlt', hmin⟩ := hspec
      have hup := hmin ej hej (by omega)
      obtain ⟨i', hi', his', -⟩ := hf.attained best hbest
      have hki' : k < i' := by
        by_contra hge
        have := slice_le_of_le h hmd hi' hk (not_lt.mp hge)
        omega
      have hdown := slice_le_of_le h hmd hjs hi' (hleast ⟨hi', hki'⟩)
      show best.key = _
      omega

include h hmd hf in
theorem getSliceFromIstat_first (hj : IsLeast {i | job.Stored i} j) (curSlice : ℤ) (istat : ℕ) :
    getSliceFromIstat stats curSlice istat .first = (intKeying o).slice j := by
  obtain ⟨hjs, hleast⟩ := hj
  obtain ⟨ej, hej, hkey, -⟩ := hf.covers j hjs
  have hspec := @getFirstSliceStat_spec _ stats
  simp only [getSliceFromIstat, if_neg (List.ne_nil_of_mem hej)]
  cases hn : getFirstSliceStat stats with
  | none =>
    rw [hn] at hspec
    exact absurd hspec (List.ne_nil_of_mem hej)
  | some best =>
    rw [hn] at hspec
    obtain ⟨hbest, hmin⟩ := hspec
    have hup := hmin ej hej
    obtain ⟨i, hi, his, -⟩ := hf.attained best hbest
    have hdown := slice_le_of_le h hmd hjs hi (hleast hi)
    show best.key = _
    omega

end Slices

/-! ## Replies -/

/-- The call with a server: the reply of that server, if it can be sent. -/
theorem mdhimGetCursor_eq {servers : ℕ → RangeServer (IntKey o) ℕ} {key : Option (IntKey o)}
    {op : CursorOp} {ri : RangesrvInfo} (hri : getRangeServerFromStats md stats key op = some ri) :
    mdhimGetCursor md stats servers key op =
      if ri.rank ≠ md.mdhimRank → (Reply.getrm (rangeServerGet true (servers ri.rank)
        (op.message key))).packs (intKeyspace (o := o) md) ri.rank
      then some (rangeServerGet true (servers ri.rank) (op.message key)) else none := by
  have hreq : (packGetMessage ⟨3, ri.rank, 0, op.code, (key.map keyBytes).getD [], 1⟩).isSome := by
    apply packGetMessage_isSome
    have hlen : ((key.map keyBytes).getD []).length ≤ 8 := by
      cases key with
      | none => exact Nat.zero_le 8
      | some key => exact (length_keyBytes key).trans_le keyWidth_le
    have hlayout : layoutSize Getm.layout = 32 := by decide
    rw [hlayout]
    unfold mdhimMaxMsgSize
    dsimp only
    omega
  unfold mdhimGetCursor
  rw [hri]
  dsimp only
  by_cases hown : md.mdhimRank = ri.rank
  · rw [if_pos hown, if_pos fun hne => absurd hown.symm hne]
  · rw [if_neg hown]
    simp only [hreq, true_and]
    by_cases hp : (Reply.getrm (rangeServerGet true (servers ri.rank) (op.message key))).packs
        (intKeyspace (o := o) md) ri.rank = true
    · rw [if_pos hp, if_pos fun _ => hp]
    · rw [if_neg hp, if_neg fun hall => hp (hall (Ne.symm hown))]

/-- The value of `j` at rank `r` reaches the client in a get reply. -/
def Fits (md : Mdhim) (job : Job o) (j : IntKey o) (r : ℕ) : Prop :=
  r ≠ md.mdhimRank → ∀ v, (job.server r).db.get j = some v →
    (layoutSize Getrm.layout + o.keyWidth + v.length : ℤ) ≤ mdhimMaxMsgSize

/-- A reply with `j` and its value arrives if it fits. -/
theorem arrives_iff {grm : GetReply (IntKey o)} {v : Value} (hkey : grm.key = some j)
    (hvalue : grm.value = some v) (hv : (job.server r).db.get j = some v) :
    (∃ g, (if r ≠ md.mdhimRank → (Reply.getrm grm).packs (intKeyspace (o := o) md) r
        then some grm else none) = some g ∧ g.key = some j) ↔ Fits md job j r := by
  have hpacks : (Reply.getrm grm).packs (intKeyspace (o := o) md) r = true ↔
      (layoutSize Getrm.layout + o.keyWidth + v.length : ℤ) ≤ mdhimMaxMsgSize := by
    rw [packs_getrm_iff, hkey, hvalue]
    show (layoutSize Getrm.layout + (keyBytes j).length + v.length : ℤ) ≤ _ ↔ _
    rw [length_keyBytes]
  unfold Fits
  constructor
  · rintro ⟨g, hg, -⟩ hne u hu
    rw [hv, Option.some.injEq] at hu
    subst hu
    split_ifs at hg with hall
    exact hpacks.mp (hall hne)
  · intro hfits
    exact ⟨grm, if_pos fun hne => hpacks.mpr (hfits hne v hv), hkey⟩

/-- A reply without a key arrives. -/
theorem arrives_none {grm : GetReply (IntKey o)} (hkey : grm.key = none)
    (hvalue : grm.value = none) :
    (Reply.getrm grm).packs (intKeyspace (o := o) md) r = true := by
  have hlayout : layoutSize Getrm.layout = 48 := by decide
  rw [packs_getrm_iff, hkey, hvalue, hlayout]
  unfold mdhimMaxMsgSize
  simp

section Calls

variable (h : JobInv md size job) (hmd : md.opts = o.toMdhimOptions) (hf : Fresh job stats)

include h hmd in
theorem JobInv.slice_ne_error (hk : job.Stored k) : (intKeying o).slice k ≠ mdhimError :=
  (h.valid hmd hk).slice_ne_error

include h hmd in
/-- A stored key is on one server. -/
theorem JobInv.rank_unique (hk : k ∈ (job.server r).db.keys) (hk' : k ∈ (job.server r').db.keys) :
    r = r' :=
  ((h.server r).routed k hk).eq_of_slice_eq hmd ((h.server r').routed k hk') rfl

include h hmd hf in
/-- A call with the next operation goes to the server of the next stored key. -/
theorem server_next (hk : job.Stored k) (hj : IsLeast (job.later k) j)
    (hr : j ∈ (job.server r).db.keys) :
    ∃ ri, getRangeServerFromStats md stats (some k) .next = some ri ∧ ri.rank = r := by
  obtain ⟨-, ri, hri, hrank⟩ := ((h.server r).routed j hr).bySlice hmd
  obtain ⟨e, he, -⟩ := hf.covers k hk
  have hslice := h.slice_ne_error hmd hk
  rw [intKeying_slice] at hslice
  refine ⟨ri, ?_, hrank⟩
  simp only [getRangeServerFromStats, if_neg (List.ne_nil_of_mem he), hmd, if_neg hslice]
  rw [← intKeying_slice, getSliceFromIstat_next h hmd hf hk hj,
    if_neg (h.slice_ne_error hmd hj.1.1), hri]

include h hmd hf in
/-- A call with the first operation goes to the server of the first stored key. -/
theorem server_first {start : Option (IntKey o)} (hstart : ∀ key ∈ start, ValidKey key)
    (hj : IsLeast {i | job.Stored i} j) (hr : j ∈ (job.server r).db.keys) :
    ∃ ri, getRangeServerFromStats md stats start .first = some ri ∧ ri.rank = r := by
  obtain ⟨-, ri, hri, hrank⟩ := ((h.server r).routed j hr).bySlice hmd
  obtain ⟨e, he, -⟩ := hf.covers j hj.1
  refine ⟨ri, ?_, hrank⟩
  cases start with
  | none =>
    simp only [getRangeServerFromStats, if_neg (List.ne_nil_of_mem he), ne_eq, not_true_eq_false,
      false_and, if_false]
    rw [getSliceFromIstat_first h hmd hf hj, if_neg (h.slice_ne_error hmd ⟨r, hr⟩), hri]
  | some key =>
    have hslice : getSliceNum o.toMdhimOptions (some (keyBytes key)) ≠ mdhimError :=
      (hstart key rfl).slice_ne_error
    simp only [getRangeServerFromStats, if_neg (List.ne_nil_of_mem he), hmd, if_neg hslice]
    rw [getSliceFromIstat_first h hmd hf hj, if_neg (h.slice_ne_error hmd ⟨r, hr⟩), hri]

include h hmd hf in
/-- The next call gets the next stored key exactly if that is on the server of the given key and
fits. -/
theorem get_next_iff (hk : k ∈ (job.server r).db.keys) (hj : IsLeast (job.later k) j)
    (hr : j ∈ (job.server r').db.keys) :
    (∃ grm, mdhimGetCursor md stats job.server (some k) .next = some grm ∧ grm.key = some j) ↔
      r = r' ∧ Fits md job j r' := by
  obtain ⟨ri, hri, rfl⟩ := server_next h hmd hf ⟨r, hk⟩ hj hr
  have hleast : IsLeast {i | i ∈ (job.server ri.rank).db.keys ∧ k < i} j :=
    ⟨⟨hr, hj.1.2⟩, fun i hi => hj.2 ⟨⟨ri.rank, hi.1⟩, hi.2⟩⟩
  rw [mdhimGetCursor_eq hri]
  by_cases hrank : r = ri.rank
  · subst hrank
    obtain ⟨v, hv, hnext⟩ := leveldbGetNext_of_isLeast hk hleast
    rw [arrives_iff (v := v) (by simp [CursorOp.message, rangeServerGet, GetReply.ofCursor, hnext])
      (by simp [CursorOp.message, rangeServerGet, GetReply.ofCursor, hnext]) hv]
    exact ⟨fun hfits => ⟨rfl, hfits⟩, fun hfits => hfits.2⟩
  · have hnot : k ∉ (job.server ri.rank).db.keys := fun hk' => hrank (h.rank_unique hmd hk hk')
    refine iff_of_false ?_ fun hc => hrank hc.1
    rintro ⟨grm, hgrm, hkey⟩
    split_ifs at hgrm
    obtain rfl := Option.some.inj hgrm
    obtain ⟨p, hp, hpj⟩ := Option.map_eq_some_iff.mp hkey
    exact leveldbGetNext_ne_of_isLeast hnot hleast hp hpj

include h hmd hf in
/-- The first call gets the first stored key exactly if that fits. -/
theorem get_first_iff {start : Option (IntKey o)} (hstart : ∀ key ∈ start, ValidKey key)
    (hj : IsLeast {i | job.Stored i} j) (hr : j ∈ (job.server r).db.keys) :
    (∃ grm, mdhimGetCursor md stats job.server start .first = some grm ∧ grm.key = some j) ↔
      Fits md job j r := by
  obtain ⟨ri, hri, rfl⟩ := server_first h hmd hf hstart hj hr
  have hleast : IsLeast {i | i ∈ (job.server ri.rank).db.keys} j :=
    ⟨hr, fun i hi => hj.2 ⟨ri.rank, hi⟩⟩
  obtain ⟨v, hv, hfirst⟩ := leveldbGetNext_first hleast
  rw [mdhimGetCursor_eq hri]
  exact arrives_iff (by simp [CursorOp.message, rangeServerGet, GetReply.ofCursor, hfirst])
    (by simp [CursorOp.message, rangeServerGet, GetReply.ofCursor, hfirst]) hv

/-- After the last stored key the reply has no key. -/
theorem get_next_none (hlast : ∀ i, job.Stored i → ¬ k < i) :
    ∃ grm, mdhimGetCursor md stats job.server (some k) .next = some grm ∧ grm.key = none := by
  cases hri : getRangeServerFromStats md stats (some k) .next with
  | none =>
    refine ⟨⟨mdhimSuccess, none, none⟩, ?_, rfl⟩
    simp only [mdhimGetCursor, hri, Option.map_some]
  | some ri =>
    have hnext : (leveldbGetNext (job.server ri.rank).db (some k)).2 = none :=
      leveldbGetNext_eq_none fun i hi => hlast i ⟨ri.rank, hi⟩
    rw [mdhimGetCursor_eq hri]
    have hkey : (rangeServerGet true (job.server ri.rank) (CursorOp.next.message (some k))).key =
        none := by simp [CursorOp.message, rangeServerGet, GetReply.ofCursor, hnext]
    have hvalue : (rangeServerGet true (job.server ri.rank) (CursorOp.next.message (some k))).value =
        none := by simp [CursorOp.message, rangeServerGet, GetReply.ofCursor, hnext]
    exact ⟨_, if_pos fun _ => arrives_none hkey hvalue, hkey⟩

end Calls

/-! ## Whole traversals -/

/-- One call more. -/
theorem traverse_succ {get : Option (IntKey o) → CursorOp → Option (GetReply (IntKey o))} {n : ℕ}
    {key : Option (IntKey o)} {op : CursorOp} {ks : List (IntKey o)} :
    traverse get (n + 1) key op = some ks ↔ ∃ grm, get key op = some grm ∧
      ((grm.key = none ∧ ks = []) ∨ ∃ j rest, grm.key = some j ∧ ks = j :: rest ∧
        traverse get n (some j) .next = some rest) := by
  rw [traverse, Option.bind_eq_bind, Option.bind_eq_some_iff]
  refine exists_congr fun grm => and_congr_right fun _ => ?_
  cases hkey : grm.key with
  | none => simp [eq_comm]
  | some j =>
    simp only [Option.bind_eq_bind, Option.bind_eq_some_iff, pure, Option.some.injEq, reduceCtorEq,
      false_and, false_or]
    constructor
    · rintro ⟨rest, hrest, rfl⟩
      exact ⟨j, rest, rfl, rfl, hrest⟩
    · rintro ⟨_, rest, rfl, rfl, hrest⟩
      exact ⟨rest, hrest, rfl⟩

/-- A traversal that ends does so in one way. -/
theorem traverse_unique {get : Option (IntKey o) → CursorOp → Option (GetReply (IntKey o))}
    {n m : ℕ} {key : Option (IntKey o)} {op : CursorOp} {ks ks' : List (IntKey o)}
    (h : traverse get n key op = some ks) (h' : traverse get m key op = some ks') : ks = ks' := by
  induction n generalizing m key op ks ks' with
  | zero => cases h
  | succ n ih =>
    cases m with
    | zero => cases h'
    | succ m =>
      obtain ⟨grm, hgrm, hks⟩ := traverse_succ.mp h
      obtain ⟨grm', hgrm', hks'⟩ := traverse_succ.mp h'
      obtain rfl : grm = grm' := Option.some.inj (hgrm.symm.trans hgrm')
      rcases hks with ⟨hnone, rfl⟩ | ⟨j, rest, hkey, rfl, hrest⟩ <;>
        rcases hks' with ⟨hnone', rfl⟩ | ⟨j', rest', hkey', rfl, hrest'⟩
      · rfl
      · rw [hnone] at hkey'
        cases hkey'
      · rw [hnone'] at hkey
        cases hkey
      · obtain rfl : j = j' := Option.some.inj (hkey.symm.trans hkey')
        rw [ih hrest hrest']

/-- In a sorted list, the key behind another one is the least above it. -/
theorem isLeast_of_sorted {pre suf : List (IntKey o)}
    (hs : (pre ++ k :: j :: suf).Pairwise (· < ·)) :
    IsLeast {i | i ∈ pre ++ k :: j :: suf ∧ k < i} j := by
  rw [List.pairwise_append, List.pairwise_cons, List.pairwise_cons] at hs
  obtain ⟨-, ⟨hk, hj, -⟩, hpre⟩ := hs
  refine ⟨⟨by simp, hk j List.mem_cons_self⟩, fun i hi => ?_⟩
  obtain ⟨hmem, hki⟩ := hi
  rcases List.mem_append.mp hmem with hmem | hmem
  · exact absurd (hpre i hmem k List.mem_cons_self) (not_lt.mpr hki.le)
  · rcases List.mem_cons.mp hmem with rfl | hmem
    · exact absurd hki (lt_irrefl _)
    · rcases List.mem_cons.mp hmem with rfl | hmem
      · exact le_rfl
      · exact (hj i hmem).le

section Traversals

variable (h : JobInv md size job) (hmd : md.opts = o.toMdhimOptions) (hf : Fresh job stats)

include h hmd hf in
/-- When one server has all keys and their values fit, the calls after `k` go through the keys
after `k`. -/
theorem traverse_of_one_server (hone : ∀ i, job.Stored i → i ∈ (job.server r).db.keys)
    (hfits : ∀ i, Fits md job i r) {suf : List (IntKey o)} :
    ∀ {pre : List (IntKey o)} {k : IntKey o}, (job.server r).db.keys = pre ++ k :: suf →
      traverse (mdhimGetCursor md stats job.server) (suf.length + 1) (some k) .next = some suf := by
  induction suf with
  | nil =>
    intro pre k hkeys
    have hsorted := (job.server r).db.keys_sorted
    rw [hkeys, List.pairwise_append] at hsorted
    have hlast : ∀ i, job.Stored i → ¬ k < i := by
      intro i hi hlt
      have hmem := hone i hi
      rw [hkeys] at hmem
      rcases List.mem_append.mp hmem with hmem | hmem
      · exact absurd (hsorted.2.2 i hmem k List.mem_cons_self) (not_lt.mpr hlt.le)
      · exact absurd hlt (by rw [List.mem_singleton.mp hmem]; exact lt_irrefl _)
    obtain ⟨grm, hgrm, hnone⟩ := @get_next_none _ md _ stats _ hlast
    exact traverse_succ.mpr ⟨grm, hgrm, Or.inl ⟨hnone, rfl⟩⟩
  | cons j suf ih =>
    intro pre k hkeys
    have hsorted := (job.server r).db.keys_sorted
    rw [hkeys] at hsorted
    have hj := isLeast_of_sorted hsorted
    rw [← hkeys] at hj
    have hk : k ∈ (job.server r).db.keys := by rw [hkeys]; simp
    have hleast : IsLeast (job.later k) j :=
      ⟨⟨⟨r, hj.1.1⟩, hj.1.2⟩, fun i hi => hj.2 ⟨hone i hi.1, hi.2⟩⟩
    obtain ⟨grm, hgrm, hkey⟩ := (get_next_iff h hmd hf hk hleast hj.1.1).mpr ⟨rfl, hfits j⟩
    refine traverse_succ.mpr ⟨grm, hgrm, Or.inr ⟨j, suf, hkey, rfl, ?_⟩⟩
    exact @ih (pre ++ [k]) j (by rw [hkeys]; simp)

include h hmd hf in
/-- Calls that go through all keys after `k` stay on the server of `k`, and the values fit. -/
theorem one_server_of_traverse {n : ℕ} {ks : List (IntKey o)}
    (htr : traverse (mdhimGetCursor md stats job.server) n (some k) .next = some ks)
    (hs : (k :: ks).Pairwise (· < ·)) (hall : ∀ i, i ∈ ks ↔ job.Stored i ∧ k < i)
    (hk : k ∈ (job.server r).db.keys) :
    ∀ i ∈ ks, ∀ r', i ∈ (job.server r').db.keys → r' = r ∧ Fits md job i r' := by
  induction n generalizing k ks with
  | zero => cases htr
  | succ n ih =>
    obtain ⟨grm, hgrm, ⟨-, rfl⟩ | ⟨j, rest, hkey, rfl, hrest⟩⟩ := traverse_succ.mp htr
    · exact fun i hi => (List.not_mem_nil hi).elim
    · obtain ⟨hks, hsj⟩ := List.pairwise_cons.mp hs
      have hjrest := (List.pairwise_cons.mp hsj).1
      obtain ⟨hj, hkj⟩ := (hall j).mp List.mem_cons_self
      have hleast : IsLeast (job.later k) j := by
        refine ⟨⟨hj, hkj⟩, fun i hi => ?_⟩
        rcases List.mem_cons.mp ((hall i).mpr hi) with rfl | hi
        · exact le_rfl
        · exact (hjrest i hi).le
      obtain ⟨rj, hrj⟩ := hj
      obtain ⟨rfl, hfits⟩ := (get_next_iff h hmd hf hk hleast hrj).mp ⟨grm, hgrm, hkey⟩
      have hrec : ∀ i, i ∈ rest ↔ job.Stored i ∧ j < i := by
        intro i
        constructor
        · intro hi
          exact ⟨((hall i).mp (List.mem_cons_of_mem _ hi)).1, hjrest i hi⟩
        · rintro ⟨hi, hji⟩
          rcases List.mem_cons.mp ((hall i).mpr ⟨hi, hkj.trans hji⟩) with rfl | hmem
          · exact absurd hji (lt_irrefl _)
          · exact hmem
      intro i hi r' hir
      rcases List.mem_cons.mp hi with rfl | hi
      · obtain rfl := h.rank_unique hmd hir hrj
        exact ⟨rfl, hfits⟩
      · exact ih hrest hsj hrec hrj i hi r' hir

end Traversals

/-! ## When the traversal is complete -/

/-- The traversal of the rank of `md` gets every stored key once, in order, and then no key. -/
def TraversalComplete (md : Mdhim) (job : Job o) (start : Option (IntKey o)) : Prop :=
  ∃ n ks, traverse (mdhimGetCursor md (job.stats md.mdhimRank) job.server) n start .first =
    some ks ∧ ks.Pairwise (· < ·) ∧ ∀ k, k ∈ ks ↔ job.Stored k

/-- The key that is passed along with the first operation: NULL if something is stored, or one that
the slices can hold, or any if nothing is stored. -/
def StartsWell (job : Job o) : Option (IntKey o) → Prop
  | none => ∃ k, job.Stored k
  | some key => ValidKey key ∨ ∀ k, ¬ job.Stored k

/-- All keys are on one server. -/
def OneServer (job : Job o) : Prop :=
  ∀ r r', (job.server r).db.keys ≠ [] → (job.server r').db.keys ≠ [] → r = r'

/-- Every value on another rank fits a get reply. -/
def RepliesFit (md : Mdhim) (job : Job o) : Prop :=
  ∀ r ≠ md.mdhimRank, ∀ k v, (job.server r).db.get k = some v →
    (layoutSize Getrm.layout + o.keyWidth + v.length : ℤ) ≤ mdhimMaxMsgSize

/-- Without stored keys there are no statistics, and no server for any call. -/
theorem Fresh.server_eq_none (hf : Fresh job stats) (hnone : ∀ k, ¬ job.Stored k)
    (key : Option (IntKey o)) (op : CursorOp) : getRangeServerFromStats md stats key op = none := by
  have hnil : stats = [] := by
    rw [List.eq_nil_iff_forall_not_mem]
    intro e he
    obtain ⟨k, hk, -⟩ := hf.attained e he
    exact hnone k hk
  simp only [getRangeServerFromStats, if_pos hnil]

/-- A key that the slices cannot hold has no server. -/
theorem server_eq_none_of_not_valid (hmd : md.opts = o.toMdhimOptions) (hk : ¬ ValidKey k)
    (op : CursorOp) : getRangeServerFromStats md stats (some k) op = none := by
  have hslice : getSliceNum o.toMdhimOptions (some (keyBytes k)) = mdhimError :=
    getSliceNum_of_not_verifyKey fun he => hk ((verifyKey_keyBytes k).mp he)
  simp only [getRangeServerFromStats, hmd, if_pos hslice, ite_self]

section Complete

variable (h : JobInv md size job) (hmd : md.opts = o.toMdhimOptions)
  (hf : Fresh job (job.stats md.mdhimRank)) {start : Option (IntKey o)}

include hf in
/-- The traversal of an empty store. -/
theorem traversal_complete_of_empty (hnone : ∀ k, ¬ job.Stored k) (hstart : start ≠ none) :
    TraversalComplete md job start := by
  obtain ⟨key, rfl⟩ := Option.ne_none_iff_exists'.mp hstart
  refine ⟨1, [], traverse_succ.mpr ⟨⟨mdhimSuccess, none, none⟩, ?_, Or.inl ⟨rfl, rfl⟩⟩, .nil,
    fun k => ⟨fun hk => (List.not_mem_nil hk).elim, fun hk => (hnone k hk).elim⟩⟩
  simp only [mdhimGetCursor, hf.server_eq_none hnone, Option.map_some]

include h hmd hf in
/-- One server with values that fit is traversed. -/
theorem traversal_complete_of_one_server (hvalid : ∀ key ∈ start, ValidKey key)
    (hk : k ∈ (job.server r).db.keys) (hone : ∀ i, job.Stored i → i ∈ (job.server r).db.keys)
    (hfits : ∀ i, Fits md job i r) : TraversalComplete md job start := by
  have hsorted := (job.server r).db.keys_sorted
  cases hkeys : (job.server r).db.keys with
  | nil =>
    rw [hkeys] at hk
    cases hk
  | cons j suf =>
    have hj : j ∈ (job.server r).db.keys := by rw [hkeys]; exact List.mem_cons_self
    have hleast : IsLeast {i | job.Stored i} j := by
      refine ⟨⟨r, hj⟩, fun i hi => ?_⟩
      have hmem := hone i hi
      rw [hkeys] at hmem hsorted
      rcases List.mem_cons.mp hmem with rfl | hmem
      · exact le_rfl
      · exact ((List.pairwise_cons.mp hsorted).1 i hmem).le
    obtain ⟨grm, hgrm, hkey⟩ := (get_first_iff h hmd hf hvalid hleast hj).mpr (hfits j)
    have htail := traverse_of_one_server h hmd hf hone hfits
      (show (job.server r).db.keys = [] ++ j :: suf from hkeys)
    refine ⟨suf.length + 2, j :: suf,
      traverse_succ.mpr ⟨grm, hgrm, Or.inr ⟨j, suf, hkey, rfl, htail⟩⟩, hkeys ▸ hsorted, fun i => ?_⟩
    rw [← hkeys]
    exact ⟨fun hi => ⟨r, hi⟩, hone i⟩

include h hmd hf in
/-- What a complete traversal shows. -/
theorem condition_of_traversal_complete (hc : TraversalComplete md job start) :
    StartsWell job start ∧ OneServer job ∧ RepliesFit md job := by
  obtain ⟨n, ks, htr, hsorted, hall⟩ := hc
  cases n with
  | zero => cases htr
  | succ n =>
    obtain ⟨grm, hgrm, ⟨-, rfl⟩ | ⟨j, rest, hkey, rfl, hrest⟩⟩ := traverse_succ.mp htr
    · have hnone : ∀ k, ¬ job.Stored k := fun k hk => List.not_mem_nil ((hall k).mpr hk)
      refine ⟨?_, fun r r' hr _ => ?_, fun r _ k v hv => ?_⟩
      · cases start with
        | none =>
          simp only [mdhimGetCursor, hf.server_eq_none hnone] at hgrm
          cases hgrm
        | some key => exact Or.inr hnone
      · obtain ⟨k, hk⟩ := List.exists_mem_of_ne_nil _ hr
        exact (hnone k ⟨r, hk⟩).elim
      · exact (hnone k ⟨r, OrdMap.mem_keys.mpr (by rw [hv]; exact Option.some_ne_none v)⟩).elim
    · have hj : job.Stored j := (hall j).mp List.mem_cons_self
      have hvalid : ∀ key ∈ start, ValidKey key := by
        rintro key hstart
        obtain rfl := hstart
        by_contra hv
        simp only [mdhimGetCursor, server_eq_none_of_not_valid hmd hv, Option.map_some,
          Option.some.injEq] at hgrm
        rw [← hgrm] at hkey
        cases hkey
      have hjrest := (List.pairwise_cons.mp hsorted).1
      have hleast : IsLeast {i | job.Stored i} j := by
        refine ⟨hj, fun i hi => ?_⟩
        rcases List.mem_cons.mp ((hall i).mpr hi) with rfl | hi
        · exact le_rfl
        · exact (hjrest i hi).le
      obtain ⟨rj, hrj⟩ := hj
      have hfirst := (get_first_iff h hmd hf hvalid hleast hrj).mp ⟨grm, hgrm, hkey⟩
      have htail := one_server_of_traverse h hmd hf hrest hsorted (fun i => by
        constructor
        · exact fun hi => ⟨(hall i).mp (List.mem_cons_of_mem _ hi), hjrest i hi⟩
        · rintro ⟨hi, hji⟩
          rcases List.mem_cons.mp ((hall i).mpr hi) with rfl | hmem
          · exact absurd hji (lt_irrefl _)
          · exact hmem) hrj
      have hstored : ∀ i r, i ∈ (job.server r).db.keys → r = rj ∧ Fits md job i r := by
        intro i r hi
        rcases List.mem_cons.mp ((hall i).mpr ⟨r, hi⟩) with rfl | hmem
        · obtain rfl := h.rank_unique hmd hi hrj
          exact ⟨rfl, hfirst⟩
        · exact htail i hmem r hi
      refine ⟨?_, fun r r' hr hr' => ?_, fun r hne k v hv => ?_⟩
      · cases start with
        | none => exact ⟨j, rj, hrj⟩
        | some key => exact Or.inl (hvalid key rfl)
      · obtain ⟨i, hi⟩ := List.exists_mem_of_ne_nil _ hr
        obtain ⟨i', hi'⟩ := List.exists_mem_of_ne_nil _ hr'
        rw [(hstored i r hi).1, (hstored i' r' hi').1]
      · exact (hstored k r (OrdMap.mem_keys.mpr (by rw [hv]; exact Option.some_ne_none v))).2 hne v hv

end Complete

/-- After puts and stat flushes, with a flush at the end, the traversal of a rank is complete exactly
when it starts with a usable key, all stored keys are on one server, and the values on other ranks
fit a get reply. -/
theorem traversal_complete_iff (o : IntOptions) (append : Bool) {size client : ℕ}
    (hclient : client < size) {md : Mdhim}
    (hmd : mdhimInit o.toMdhimOptions size client = some md) {ls : List (JobLabel (IntKey o))}
    (hls : ∀ a ∈ ls, PutOrFlush md a) {job : Job o}
    (hrun : exec (jobStep append size) Job.init (ls ++ [.statFlush]) = some job)
    (start : Option (IntKey o)) :
    TraversalComplete md job start ↔ StartsWell job start ∧ OneServer job ∧ RepliesFit md job := by
  have hsize : 0 < size := Nat.zero_lt_of_lt hclient
  obtain ⟨h, hfresh⟩ := fresh_of_run hsize hmd hls hrun
  rw [mdhimInit_eq hsize, Option.some.injEq] at hmd
  have hopts : md.opts = o.toMdhimOptions := by rw [← hmd]
  have hrank : md.mdhimRank = client := by rw [← hmd]
  have hf := hfresh md.mdhimRank (by rw [hrank]; exact hclient)
  refine ⟨condition_of_traversal_complete h hopts hf, fun ⟨hstart, hone, hfit⟩ => ?_⟩
  by_cases hnone : ∀ k, ¬ job.Stored k
  · refine traversal_complete_of_empty hf hnone ?_
    rintro rfl
    obtain ⟨k, hk⟩ := hstart
    exact hnone k hk
  · obtain ⟨k, hk⟩ := not_forall_not.mp hnone
    have hvalid : ∀ key ∈ start, ValidKey key := by
      rintro key hkey
      obtain rfl := hkey
      exact hstart.resolve_right hnone
    obtain ⟨r, hk⟩ := hk
    refine traversal_complete_of_one_server h hopts hf hvalid hk (fun i hi => ?_)
      fun i hne v hv => hfit r hne i v hv
    obtain ⟨r', hi⟩ := hi
    rwa [hone r r' (List.ne_nil_of_mem hk) (List.ne_nil_of_mem hi)]

/-- Two servers, and keys of two slices of one of them: a client elsewhere gets them all. -/
theorem traversal_complete_three_keys :
    let o : IntOptions := ⟨⟨.int, 1, 10, by decide, by decide, by decide⟩, Or.inl rfl⟩
    ∃ md, mdhimInit o.toMdhimOptions 2 1 = some md ∧ ∃ job : Job o,
      exec (jobStep false 2) Job.init
        [.server 0 (.put .ok 25 [1]), .statFlush, .server 0 (.bput .ok [(7, [2]), (5, [3])]),
          .statFlush] = some job ∧
      (TraversalComplete md job none ↔
        StartsWell job none ∧ OneServer job ∧ RepliesFit md job) := by
  intro o
  let ls : List (JobLabel (IntKey o)) :=
    [.server 0 (.put .ok 25 [1]), .statFlush, .server 0 (.bput .ok [(7, [2]), (5, [3])])]
  have hmd := mdhimInit_eq (o := o.toMdhimOptions) (show 0 < 2 by decide) 1
  have hrun : (exec (jobStep false 2) (Job.init (o := o)) (ls ++ [.statFlush])).isSome := by
    decide +kernel
  obtain ⟨job, hjob⟩ := Option.isSome_iff_exists.mp hrun
  exact ⟨_, hmd, job, hjob,
    traversal_complete_iff o false (by decide) hmd (by decide +kernel) hjob none⟩

/-- Two servers with one key each: from the key of the first, the cursor of the second goes past its
own key. -/
theorem traversal_misses_second_server :
    let o : IntOptions := ⟨⟨.int, 1, 10, by decide, by decide, by decide⟩, Or.inl rfl⟩
    ∃ md, mdhimInit o.toMdhimOptions 2 0 = some md ∧ ∃ job : Job o,
      exec (jobStep false 2) Job.init
        [.server 0 (.put .ok 5 [1]), .server 1 (.put .ok 12 [2]), .statFlush] = some job ∧
      (∀ a ∈ [JobLabel.server 0 (.put .ok 5 [1]), .server 1 (.put .ok 12 [2]), .statFlush],
        PutOrFlush (o := o) md a) ∧
      ¬ TraversalComplete md job (some 0) := by
  intro o
  let ls : List (JobLabel (IntKey o)) :=
    [.server 0 (.put .ok 5 [1]), .server 1 (.put .ok 12 [2]), .statFlush]
  have hmd := mdhimInit_eq (o := o.toMdhimOptions) (show 0 < 2 by decide) 0
  refine ⟨_, hmd, ?_⟩
  have hrun : ∃ job : Job o, exec (jobStep false 2) Job.init ls = some job ∧
      traverse (mdhimGetCursor ⟨o.toMdhimOptions, 0, 2, getNumRangeServers o.toMdhimOptions 2,
        rangesrvsOf o.toMdhimOptions 2, rangesrvMaster (rangesrvsOf o.toMdhimOptions 2)⟩ (job.stats 0)
          job.server) 2 (some 0) .first = some [5] ∧ 12 ∈ (job.server 1).db.keys := by
    have h : ((exec (jobStep false 2) (Job.init (o := o)) ls).any fun job =>
        traverse (mdhimGetCursor ⟨o.toMdhimOptions, 0, 2, getNumRangeServers o.toMdhimOptions 2,
          rangesrvsOf o.toMdhimOptions 2, rangesrvMaster (rangesrvsOf o.toMdhimOptions 2)⟩
            (job.stats 0) job.server) 2 (some 0) .first = some [5] ∧
          12 ∈ (job.server 1).db.keys) = true := by decide +kernel
    obtain ⟨job, hjob, hp⟩ := (Option.any_eq_true _ _).mp h
    exact ⟨job, hjob, of_decide_eq_true hp⟩
  obtain ⟨job, hjob, htr, hmem⟩ := hrun
  refine ⟨job, hjob, by decide +kernel, ?_⟩
  rintro ⟨n, ks, htr', -, hall⟩
  obtain rfl := traverse_unique htr htr'
  have hmiss : (12 : IntKey o) ∉ [5] := by decide
  exact hmiss ((hall 12).mpr ⟨1, hmem⟩)

end MpiToShmem
