import MpiToShmem.Mdhim.Partitioner
import Mathlib.Data.List.Range
import Mathlib.Data.Nat.ModEq

/-!
# Range servers: which ranks serve, and which serves a key

1. `getNumRangeServers` and `isRangeServer` are computed from the communicator's size alone;
   `isRangeServer_unique`: together the ranks take each server number once.
2. `getRangesrvs` lists the servers from the numbers all ranks contribute (`mem_getRangesrvs`).
3. `getRangeServer` finds the server of a key; `routing_agreed` puts the parts together: a verified
   key has a slice in range and one server, the same on every rank.
-/

namespace MpiToShmem

open Kit

variable (o : MdhimOptions) (size : ℕ)

/-! ## Numbers -/

/-- `get_num_range_servers`. -/
def getNumRangeServers : ℕ :=
  if (size : ℤ) - 1 < o.rserverFactor then 1
  else (List.range size).countP fun i => i % o.rserverFactor = 0

/-- The number that `is_range_server` computes for a rank, before it caps it. -/
def rangesrvNum (rank : ℕ) : ℕ :=
  if (size : ℤ) - 1 < o.rserverFactor ∧ (rank : ℤ) = size - 1 then 1
  else if o.rserverFactor ≤ (size : ℤ) - 1 ∧ rank % o.rserverFactor = 0 then
    rank / o.rserverFactor + 1
  else 0

/-- `is_range_server`: the number of the range server that `rank` is, or 0. -/
def isRangeServer (numRangesrvs rank : ℕ) : ℕ :=
  if rangesrvNum o size rank > numRangesrvs then 0 else rangesrvNum o size rank

theorem countP_range_mod (f n : ℕ) :
    (List.range (n + 1)).countP (fun i => i % f = 0) = n / f + 1 := by
  induction n with
  | zero => simp
  | succ n ih =>
    rw [List.range_succ, List.countP_append, ih, Nat.succ_div]
    by_cases h : f ∣ n + 1
    · simp [h, Nat.mod_eq_zero_of_dvd h]
    · have hm : ¬ (n + 1) % f = 0 := fun e => h (Nat.dvd_of_mod_eq_zero e)
      simp [h, hm]

variable {o size}

/-- With more ranks than the factor, every factor-th rank serves. -/
theorem getNumRangeServers_of_le (h : o.rserverFactor < size) :
    getNumRangeServers o size = (size - 1) / o.rserverFactor + 1 := by
  unfold getNumRangeServers
  rw [if_neg (by omega)]
  obtain ⟨n, rfl⟩ : ∃ n, size = n + 1 := ⟨size - 1, by omega⟩
  exact countP_range_mod o.rserverFactor n

theorem getNumRangeServers_of_ge (h : size ≤ o.rserverFactor) :
    getNumRangeServers o size = 1 := by
  unfold getNumRangeServers
  rw [if_pos (by omega)]

theorem getNumRangeServers_pos (o : MdhimOptions) (size : ℕ) : 0 < getNumRangeServers o size := by
  rcases le_or_gt size o.rserverFactor with h | h
  · rw [getNumRangeServers_of_ge h]
    exact one_pos
  · rw [getNumRangeServers_of_le h]
    exact Nat.succ_pos _

/-- With no more ranks than the factor, the last rank is the one server. -/
theorem isRangeServer_of_ge (h : size ≤ o.rserverFactor) {rank : ℕ} :
    isRangeServer o size (getNumRangeServers o size) rank = if rank + 1 = size then 1 else 0 := by
  have hnum : rangesrvNum o size rank = if rank + 1 = size then 1 else 0 := by
    unfold rangesrvNum
    by_cases hr : rank + 1 = size
    · rw [if_pos ⟨by omega, by omega⟩, if_pos hr]
    · rw [if_neg (fun hc => hr (by omega)), if_neg (fun hc => by omega), if_neg hr]
  unfold isRangeServer
  rw [getNumRangeServers_of_ge h, hnum, if_neg (by split_ifs <;> omega)]

/-- With more ranks than the factor, the ranks it divides are the servers, in order. -/
theorem isRangeServer_of_le (h : o.rserverFactor < size) {rank : ℕ} (hr : rank < size) :
    isRangeServer o size (getNumRangeServers o size) rank =
      if rank % o.rserverFactor = 0 then rank / o.rserverFactor + 1 else 0 := by
  have hle : rank / o.rserverFactor ≤ (size - 1) / o.rserverFactor :=
    Nat.div_le_div_right (by omega)
  have hnum : rangesrvNum o size rank =
      if rank % o.rserverFactor = 0 then rank / o.rserverFactor + 1 else 0 := by
    unfold rangesrvNum
    rw [if_neg (fun hc => by omega)]
    by_cases hm : rank % o.rserverFactor = 0
    · rw [if_pos ⟨by omega, hm⟩, if_pos hm]
    · rw [if_neg (fun hc => hm hc.2), if_neg hm]
  have hcap : (if rank % o.rserverFactor = 0 then rank / o.rserverFactor + 1 else 0) ≤
      (size - 1) / o.rserverFactor + 1 := by
    split_ifs
    · exact Nat.succ_le_succ hle
    · exact Nat.zero_le _
  unfold isRangeServer
  rw [getNumRangeServers_of_le h, hnum, if_neg (not_lt.mpr hcap)]

theorem isRangeServer_le {rank : ℕ} :
    isRangeServer o size (getNumRangeServers o size) rank ≤ getNumRangeServers o size := by
  unfold isRangeServer
  split_ifs <;> omega

/-- Each server number belongs to exactly one rank. -/
theorem isRangeServer_unique (hsize : 0 < size) {k : ℕ} (hk : 0 < k)
    (hkn : k ≤ getNumRangeServers o size) :
    ∃! rank, rank < size ∧ isRangeServer o size (getNumRangeServers o size) rank = k := by
  rcases le_or_gt size o.rserverFactor with h | h
  · rw [getNumRangeServers_of_ge h] at hkn
    refine ⟨size - 1, ⟨by omega, ?_⟩, fun r hr => ?_⟩
    · rw [isRangeServer_of_ge h, if_pos (by omega)]
      omega
    · have hrk := hr.2
      rw [isRangeServer_of_ge h] at hrk
      split_ifs at hrk <;> omega
  · rw [getNumRangeServers_of_le h] at hkn
    have hf := o.rserverFactor_pos
    have hrank : (k - 1) * o.rserverFactor < size := by
      have hle : (k - 1) * o.rserverFactor ≤ (size - 1) / o.rserverFactor * o.rserverFactor :=
        Nat.mul_le_mul_right _ (by omega)
      have := Nat.div_mul_le_self (size - 1) o.rserverFactor
      omega
    refine ⟨(k - 1) * o.rserverFactor, ⟨hrank, ?_⟩, fun r hr => ?_⟩
    · rw [isRangeServer_of_le h hrank, if_pos (Nat.mul_mod_left _ _), Nat.mul_div_cancel _ hf]
      omega
    · have hrk := hr.2
      rw [isRangeServer_of_le h hr.1] at hrk
      split_ifs at hrk with hm
      · have hdiv : r / o.rserverFactor = k - 1 := by omega
        rw [← hdiv, Nat.div_mul_cancel (Nat.dvd_of_mod_eq_zero hm)]
      · omega

/-! ## The list of range servers -/

/-- `rangesrv_info`, without its links. -/
structure RangesrvInfo where
  rank : ℕ
  rangesrvNum : ℕ
deriving DecidableEq

/-- The loop of `get_rangesrvs` over the gathered numbers, from rank `i` on. -/
def rangesrvsFrom : ℕ → List ℕ → List RangesrvInfo
  | _, [] => []
  | i, num :: nums =>
    if num ≠ 0 then ⟨i, num⟩ :: rangesrvsFrom (i + 1) nums else rangesrvsFrom (i + 1) nums

/-- `get_rangesrvs`: the list, and the largest rank on it as the master. -/
def getRangesrvs (nums : List ℕ) : List RangesrvInfo := rangesrvsFrom 0 nums

/-- `md->rangesrv_master` after the loop: it starts at 0. -/
def rangesrvMaster (l : List RangesrvInfo) : ℕ :=
  l.foldl (fun master rs => if rs.rank > master then rs.rank else master) 0

theorem mem_rangesrvsFrom {i : ℕ} {nums : List ℕ} {rs : RangesrvInfo} :
    rs ∈ rangesrvsFrom i nums ↔
      rs.rangesrvNum ≠ 0 ∧ i ≤ rs.rank ∧ nums[rs.rank - i]? = some rs.rangesrvNum := by
  induction nums generalizing i with
  | nil => simp [rangesrvsFrom]
  | cons num nums ih =>
    have hcons : rs ∈ rangesrvsFrom i (num :: nums) ↔
        (num ≠ 0 ∧ rs = ⟨i, num⟩) ∨ rs ∈ rangesrvsFrom (i + 1) nums := by
      rw [rangesrvsFrom]
      split_ifs with h <;> simp [h]
    rw [hcons, ih]
    rcases Nat.lt_trichotomy rs.rank i with h | h | h
    · constructor
      · rintro (⟨_, rfl⟩ | ⟨_, hle, _⟩)
        · exact absurd h (lt_irrefl _)
        · omega
      · rintro ⟨_, hle, _⟩
        omega
    · subst h
      constructor
      · rintro (⟨hnum, hrs⟩ | ⟨_, hle, _⟩)
        · rw [hrs]
          exact ⟨hnum, le_rfl, by simp⟩
        · omega
      · rintro ⟨hnum, _, hget⟩
        rw [Nat.sub_self, List.getElem?_cons_zero, Option.some.injEq] at hget
        exact Or.inl ⟨hget ▸ hnum, by rw [hget]⟩
    · obtain ⟨d, hd⟩ : ∃ d, rs.rank - i = d + 1 := ⟨rs.rank - i - 1, by omega⟩
      have hd' : rs.rank - (i + 1) = d := by omega
      rw [hd, hd', List.getElem?_cons_succ]
      constructor
      · rintro (⟨_, rfl⟩ | ⟨hnum, _, hget⟩)
        · exact absurd h (lt_irrefl _)
        · exact ⟨hnum, h.le, hget⟩
      · rintro ⟨hnum, _, hget⟩
        exact Or.inr ⟨hnum, h, hget⟩

/-- The list is in the order of ranks. -/
theorem rangesrvsFrom_sorted (i : ℕ) (nums : List ℕ) :
    (rangesrvsFrom i nums).Pairwise fun a b => a.rank < b.rank := by
  induction nums generalizing i with
  | nil => exact .nil
  | cons num nums ih =>
    unfold rangesrvsFrom
    split_ifs with h
    · refine List.pairwise_cons.mpr ⟨fun rs hrs => ?_, ih (i + 1)⟩
      exact (mem_rangesrvsFrom.mp hrs).2.1
    · exact ih (i + 1)

/-! ## Initialization -/

/-- `mdhim_t`: what one rank knows. -/
structure Mdhim where
  opts : MdhimOptions
  mdhimRank : ℕ
  mdhimCommSize : ℕ
  numRangesrvs : ℕ
  rangesrvs : List RangesrvInfo
  rangesrvMaster : ℕ

/-- `im_range_server`: this rank has a `mdhim_rs`. -/
def Mdhim.imRangeServer (md : Mdhim) : Prop :=
  isRangeServer md.opts md.mdhimCommSize md.numRangesrvs md.mdhimRank ≠ 0

instance (md : Mdhim) : Decidable md.imRangeServer := inferInstanceAs (Decidable (_ ≠ _))

/-- The numbers that the ranks put into the `MPI_Allgather` of `get_rangesrvs`, in rank order. -/
def gatheredNums (o : MdhimOptions) (size : ℕ) : List ℕ :=
  (List.range size).map fun rank => isRangeServer o size (getNumRangeServers o size) rank

/-- The list of range servers of every rank. -/
def rangesrvsOf (o : MdhimOptions) (size : ℕ) : List RangesrvInfo :=
  getRangesrvs (gatheredNums o size)

/-- `mdhimInit` on one rank; `none` where it finds no range server. -/
def mdhimInit (o : MdhimOptions) (size rank : ℕ) : Option Mdhim :=
  let rangesrvs := rangesrvsOf o size
  if rangesrvs = [] then none
  else some ⟨o, rank, size, getNumRangeServers o size, rangesrvs, rangesrvMaster rangesrvs⟩

/-- The list contains exactly the servers. -/
theorem mem_rangesrvsOf {rs : RangesrvInfo} :
    rs ∈ rangesrvsOf o size ↔ rs.rank < size ∧ rs.rangesrvNum ≠ 0 ∧
      isRangeServer o size (getNumRangeServers o size) rs.rank = rs.rangesrvNum := by
  unfold rangesrvsOf getRangesrvs gatheredNums
  rw [mem_rangesrvsFrom, Nat.sub_zero, List.getElem?_map]
  constructor
  · rintro ⟨hnum, _, hget⟩
    obtain ⟨rank, hrank, heq⟩ := Option.map_eq_some_iff.mp hget
    obtain ⟨hlt, hrank⟩ := List.getElem?_eq_some_iff.mp hrank
    rw [List.getElem_range] at hrank
    subst hrank
    exact ⟨by simpa using hlt, hnum, heq⟩
  · rintro ⟨hlt, hnum, heq⟩
    exact ⟨hnum, Nat.zero_le _, by rw [List.getElem?_range hlt, Option.map_some, heq]⟩

theorem exists_server (hsize : 0 < size) {k : ℕ} (hk : 0 < k)
    (hkn : k ≤ getNumRangeServers o size) : ∃ rank, ⟨rank, k⟩ ∈ rangesrvsOf o size := by
  obtain ⟨rank, ⟨hlt, heq⟩, _⟩ := isRangeServer_unique hsize hk hkn
  exact ⟨rank, mem_rangesrvsOf.mpr ⟨hlt, hk.ne', heq⟩⟩

theorem rangesrvsOf_ne_nil (hsize : 0 < size) : rangesrvsOf o size ≠ [] := by
  obtain ⟨rank, h⟩ := exists_server hsize one_pos (getNumRangeServers_pos o size)
  exact List.ne_nil_of_mem h

theorem rangesrvNum_inj {a b : RangesrvInfo} (ha : a ∈ rangesrvsOf o size)
    (hb : b ∈ rangesrvsOf o size) (hab : a.rangesrvNum = b.rangesrvNum) : a = b := by
  obtain ⟨hlta, hnum, hisa⟩ := mem_rangesrvsOf.mp ha
  obtain ⟨hltb, -, hisb⟩ := mem_rangesrvsOf.mp hb
  have hle : a.rangesrvNum ≤ getNumRangeServers o size := hisa ▸ isRangeServer_le
  obtain ⟨rank, -, huniq⟩ := isRangeServer_unique (Nat.zero_lt_of_lt hlta)
    (Nat.pos_of_ne_zero hnum) hle
  have hrank : a.rank = b.rank :=
    (huniq a.rank ⟨hlta, hisa⟩).trans (huniq b.rank ⟨hltb, hisb.trans hab.symm⟩).symm
  cases a
  cases b
  simp_all

/-- There are as many servers on the list as their numbers say. -/
theorem length_rangesrvsOf (hsize : 0 < size) :
    (rangesrvsOf o size).length = getNumRangeServers o size := by
  have hnodup : ((rangesrvsOf o size).map RangesrvInfo.rangesrvNum).Nodup :=
    List.Nodup.map_on (fun _ ha _ hb => rangesrvNum_inj ha hb)
      ((rangesrvsFrom_sorted 0 _).imp fun h e => absurd (e ▸ h) (lt_irrefl _))
  have hperm : ((rangesrvsOf o size).map RangesrvInfo.rangesrvNum).Perm
      (List.range' 1 (getNumRangeServers o size)) := by
    rw [List.perm_ext_iff_of_nodup hnodup List.nodup_range']
    intro k
    rw [List.mem_map, List.mem_range'_1]
    constructor
    · rintro ⟨rs, hrs, rfl⟩
      obtain ⟨-, hnum, his⟩ := mem_rangesrvsOf.mp hrs
      have hle : rs.rangesrvNum ≤ getNumRangeServers o size := his ▸ isRangeServer_le
      omega
    · rintro ⟨hpos, hlt⟩
      obtain ⟨rank, hrank⟩ := exists_server (o := o) hsize hpos (by omega)
      exact ⟨_, hrank, rfl⟩
  have hlen := hperm.length_eq
  rwa [List.length_map, List.length_range'] at hlen

/-- The master is the last server on a list in the order of ranks. -/
theorem rangesrvMaster_concat {l : List RangesrvInfo} {rs : RangesrvInfo}
    (h : (l ++ [rs]).Pairwise fun a b => a.rank < b.rank) : rangesrvMaster (l ++ [rs]) = rs.rank := by
  have hlt : ∀ a ∈ l, a.rank < rs.rank := fun a ha =>
    (List.pairwise_append.mp h).2.2 a ha rs List.mem_cons_self
  have hbound : ∀ m ≤ rs.rank,
      l.foldl (fun master rs => if rs.rank > master then rs.rank else master) m ≤ rs.rank := by
    clear h
    induction l with
    | nil => exact fun m hm => hm
    | cons a l ih =>
      intro m hm
      have ha := hlt a List.mem_cons_self
      refine ih (fun b hb => hlt b (List.mem_cons_of_mem _ hb)) _ ?_
      dsimp only
      split_ifs <;> omega
  have hle := hbound 0 (Nat.zero_le _)
  unfold rangesrvMaster
  rw [List.foldl_append, List.foldl_cons, List.foldl_nil]
  split_ifs <;> omega

theorem nodup_rangesrvsOf : ((rangesrvsOf o size).map RangesrvInfo.rank).Nodup := by
  rw [List.Nodup, List.pairwise_map]
  exact (rangesrvsFrom_sorted 0 _).imp fun hlt heq => absurd heq hlt.ne

theorem getLast?_rangesrvsOf (hsize : 0 < size) :
    ((rangesrvsOf o size).map RangesrvInfo.rank).getLast? =
      some (rangesrvMaster (rangesrvsOf o size)) := by
  have hsorted : (rangesrvsOf o size).Pairwise fun a b => a.rank < b.rank :=
    rangesrvsFrom_sorted 0 _
  rcases List.eq_nil_or_concat (rangesrvsOf o size) with h | ⟨l, rs, h⟩
  · exact absurd h (rangesrvsOf_ne_nil hsize)
  · rw [List.concat_eq_append] at h
    rw [h] at hsorted ⊢
    rw [rangesrvMaster_concat hsorted, List.map_append, List.map_singleton, List.getLast?_concat]

theorem mdhimInit_eq (hsize : 0 < size) (rank : ℕ) :
    mdhimInit o size rank = some ⟨o, rank, size, getNumRangeServers o size, rangesrvsOf o size,
      rangesrvMaster (rangesrvsOf o size)⟩ := by
  simp only [mdhimInit, if_neg (rangesrvsOf_ne_nil hsize)]

/-! ## The server of a key -/

/-- The number of the server of a slice. -/
def sliceRangesrvNum (md : Mdhim) (slice : ℤ) : ℕ :=
  if md.numRangesrvs = 1 then 1 else toUInt32 slice % md.numRangesrvs + 1

/-- `get_range_server_by_slice`. -/
def getRangeServerBySlice (md : Mdhim) (slice : ℤ) : Option RangesrvInfo :=
  md.rangesrvs.find? fun rp => sliceRangesrvNum md slice = rp.rangesrvNum

/-- `get_range_server`. -/
def getRangeServer (md : Mdhim) (key : Option (List UInt8)) : Option RangesrvInfo :=
  let sliceNum := getSliceNum md.opts key
  if sliceNum = mdhimError then none else getRangeServerBySlice md sliceNum

theorem mem_rangesrvs_of_getRangeServer {k : Option (List UInt8)} {ri : RangesrvInfo}
    (h : getRangeServer md k = some ri) : ri ∈ md.rangesrvs := by
  unfold getRangeServer at h
  dsimp only at h
  split_ifs at h
  exact List.mem_of_find?_eq_some h

/-- Every slice has a server on the list. -/
theorem getRangeServerBySlice_isSome (md : Mdhim) (hsize : 0 < size)
    (hnum : md.numRangesrvs = getNumRangeServers o size)
    (hlist : md.rangesrvs = rangesrvsOf o size) (slice : ℤ) :
    ∃ rp ∈ rangesrvsOf o size, getRangeServerBySlice md slice = some rp := by
  have hpos := getNumRangeServers_pos o size
  have hk : ∃ rank, ⟨rank, sliceRangesrvNum md slice⟩ ∈ rangesrvsOf o size := by
    unfold sliceRangesrvNum
    split_ifs with h1
    · exact exists_server hsize one_pos (by omega)
    · have := Nat.mod_lt (toUInt32 slice) hpos
      exact exists_server hsize (Nat.succ_pos _) (by rw [hnum]; omega)
  obtain ⟨rank, hmem⟩ := hk
  unfold getRangeServerBySlice
  cases hf : md.rangesrvs.find? fun rp => sliceRangesrvNum md slice = rp.rangesrvNum with
  | none =>
    rw [List.find?_eq_none, hlist] at hf
    exact absurd (decide_eq_true rfl) (hf _ hmem)
  | some rp => exact ⟨rp, hlist ▸ List.mem_of_find?_eq_some hf, rfl⟩

/-- Keys are routed the same way everywhere: every rank starts with the list of exactly the
servers, whose numbers are `1, …, getNumRangeServers` once each, and finds the same server for a
verified key, whose slice is in range. -/
theorem routing_agreed (o : MdhimOptions) {size : ℕ} (hsize : 0 < size) :
    (∀ k, 0 < k → k ≤ getNumRangeServers o size →
      ∃! rank, rank < size ∧ isRangeServer o size (getNumRangeServers o size) rank = k) ∧
    (∀ rank, isRangeServer o size (getNumRangeServers o size) rank ≤ getNumRangeServers o size) ∧
    (∀ rank < size, ∃ md, mdhimInit o size rank = some md ∧ md.rangesrvs.Nodup ∧
      ∀ rs, rs ∈ md.rangesrvs ↔ rs.rank < size ∧ rs.rangesrvNum ≠ 0 ∧
        isRangeServer o size (getNumRangeServers o size) rs.rank = rs.rangesrvNum) ∧
    ∀ key, verifyKey o key = mdhimSuccess →
      (0 ≤ getSliceNum o key ∧ getSliceNum o key < mdhimMaxSlices) ∧
      ∃ rs : RangesrvInfo, rs.rank < size ∧ ∀ rank < size, ∃ md,
        mdhimInit o size rank = some md ∧ getRangeServer md key = some rs := by
  refine ⟨fun k => isRangeServer_unique hsize, fun _ => isRangeServer_le, fun rank _ => ?_,
    fun key hkey => ⟨getSliceNum_of_verifyKey hkey, ?_⟩⟩
  · refine ⟨_, mdhimInit_eq hsize rank, ?_, fun rs => mem_rangesrvsOf⟩
    exact (rangesrvsFrom_sorted 0 _).imp fun h e => absurd (e ▸ h) (lt_irrefl _)
  · obtain ⟨rs, hmem, heq⟩ := getRangeServerBySlice_isSome ⟨o, 0, size, getNumRangeServers o size,
      rangesrvsOf o size, rangesrvMaster (rangesrvsOf o size)⟩ hsize rfl rfl (getSliceNum o key)
    refine ⟨rs, (mem_rangesrvsOf.mp hmem).1, fun rank _ => ⟨_, mdhimInit_eq hsize rank, ?_⟩⟩
    have hne : getSliceNum o key ≠ mdhimError := by
      have := (getSliceNum_of_verifyKey hkey).1
      unfold mdhimError
      omega
    unfold getRangeServer
    rw [if_neg hne]
    exact heq

/-- Five ranks with factor 2 agree on the server of the `int` key 207. -/
theorem routing_agreed_five :
    ∃ rs : RangesrvInfo, rs.rank < 5 ∧ ∀ rank < 5, ∃ md,
      mdhimInit ⟨.int, 2, 100, by decide, by decide, by decide⟩ 5 rank = some md ∧
        getRangeServer md (some [207, 0, 0, 0]) = some rs :=
  ((routing_agreed ⟨.int, 2, 100, by decide, by decide, by decide⟩ (by decide)).2.2.2
    (some [207, 0, 0, 0]) (by decide)).2

end MpiToShmem
