import MpiToShmem.Kit.Grouping
import MpiToShmem.Mdhim.RangeServers

/-!
# The loop of the bulk calls

`mdhimBPut`, `mdhimBGet` and `mdhimBDelete` have one loop in three copies. Each record is added to
the message of its range server, which is in an array by server number, or in a variable of its own
where the server is this rank, and is created for its first record.

1. `own_bulkLoop` and `list_bulkLoop`: the variable and the array hold the groups of the records by
   rank.
2. `Partitioned`: what that says of the messages, whatever they are and however they grow
   (`partitioned_bulkLoop`).
-/

namespace MpiToShmem

open Kit

/-- The list of range servers of a rank, and their numbers from 1 on. -/
structure Mdhim.Ok (md : Mdhim) : Prop where
  rank_inj : ∀ a ∈ md.rangesrvs, ∀ b ∈ md.rangesrvs, a.rank = b.rank → a = b
  num_inj : ∀ a ∈ md.rangesrvs, ∀ b ∈ md.rangesrvs, a.rangesrvNum = b.rangesrvNum → a = b
  num_pos : ∀ a ∈ md.rangesrvs, 0 < a.rangesrvNum
  num_le : ∀ a ∈ md.rangesrvs, a.rangesrvNum ≤ md.numRangesrvs

theorem mdhimOk {md : Mdhim} {o : MdhimOptions} {size rank : ℕ} (hsize : 0 < size)
    (hmd : mdhimInit o size rank = some md) : md.Ok := by
  rw [mdhimInit_eq hsize, Option.some.injEq] at hmd
  subst hmd
  refine ⟨fun a ha b hb hab => ?_, fun a ha b hb hab => rangesrvNum_inj ha hb hab,
    fun a ha => Nat.pos_of_ne_zero (mem_rangesrvsOf.mp ha).2.1, fun a ha => ?_⟩
  · exact List.inj_on_of_nodup_map nodup_rangesrvsOf ha hb hab
  · exact (mem_rangesrvsOf.mp ha).2.2 ▸ isRangeServer_le

/-- The array of messages, with one entry for each range server, and the message to ourselves. -/
structure BulkArray (M : Type) where
  list : List (Option M)
  own : Option M

/-- All messages. -/
def BulkArray.messages {M : Type} (b : BulkArray M) : List M := b.list.reduceOption ++ b.own.toList

variable {R M : Type} (md : Mdhim) (server : R → Option RangesrvInfo) (create : ℕ → M)
  (push : M → R → M)

/-- One round of the loop. The message of the server is created if there is none. -/
def bulkRound (b : BulkArray M) (r : R) : BulkArray M :=
  match server r with
  | none => b
  | some ri =>
    if ri.rank ≠ md.mdhimRank then
      let i := ri.rangesrvNum - 1
      { b with list := b.list.set i (some (push ((b.list[i]?.join).getD (create ri.rank)) r)) }
    else { b with own := some (push (b.own.getD (create ri.rank)) r) }

/-- The loop. -/
def bulkLoop (recs : List R) : BulkArray M :=
  recs.foldl (bulkRound md server create push) ⟨List.replicate md.numRangesrvs none, none⟩

/-- The rank of the server of a record. -/
def serverRank (r : R) : Option ℕ := (server r).map RangesrvInfo.rank

variable {md server create push} {recs : List R}

theorem bulkLoop_concat (r : R) : bulkLoop md server create push (recs ++ [r]) =
    bulkRound md server create push (bulkLoop md server create push recs) r := by
  rw [bulkLoop, List.foldl_append]
  rfl

/-- The message to ourselves. -/
theorem own_bulkLoop : (bulkLoop md server create push recs).own =
    groups (serverRank server) create push recs md.mdhimRank := by
  induction recs using List.reverseRecOn with
  | nil => rfl
  | append_singleton recs r ih =>
    rw [bulkLoop_concat, groups_concat, bulkRound, joinGroup, serverRank]
    cases hri : server r with
    | none => exact ih
    | some ri =>
      dsimp only [Option.map_some]
      by_cases hown : ri.rank = md.mdhimRank
      · rw [if_neg (not_not.mpr hown), hown, Function.update_self, ← ih]
      · rw [if_pos hown, Function.update_of_ne (Ne.symm hown)]
        exact ih

/-- An array with an entry for every other server, which is its message, and with no other message. -/
structure Listed (md : Mdhim) (message : ℕ → Option M) (list : List (Option M)) : Prop where
  length : list.length = md.numRangesrvs
  get : ∀ ri ∈ md.rangesrvs, ri.rank ≠ md.mdhimRank →
    list[ri.rangesrvNum - 1]? = some (message ri.rank)
  mem : ∀ i m, list[i]? = some (some m) →
    ∃ ri ∈ md.rangesrvs, ri.rank ≠ md.mdhimRank ∧ ri.rangesrvNum - 1 = i

variable {message : ℕ → Option M} {list : List (Option M)} {ri : RangesrvInfo}

theorem listed_replicate (hok : md.Ok) :
    Listed md (fun _ => none) (List.replicate md.numRangesrvs (none : Option M)) := by
  refine ⟨List.length_replicate, fun ri hri _ => ?_, fun i m him => ?_⟩
  · have hpos := hok.num_pos ri hri
    have hle := hok.num_le ri hri
    rw [List.getElem?_replicate, if_pos (by omega)]
  · rw [List.getElem?_replicate] at him
    split_ifs at him
    cases him

/-- The message to ourselves is not in the array. -/
theorem Listed.update_own (h : Listed md message list) (m : Option M) :
    Listed md (Function.update message md.mdhimRank m) list := by
  refine ⟨h.length, fun ri hri hne => ?_, h.mem⟩
  rw [Function.update_of_ne hne]
  exact h.get ri hri hne

/-- The message of another server. -/
theorem Listed.set (h : Listed md message list) (hok : md.Ok) (hri : ri ∈ md.rangesrvs)
    (hown : ri.rank ≠ md.mdhimRank) (m : M) :
    Listed md (Function.update message ri.rank (some m))
      (list.set (ri.rangesrvNum - 1) (some m)) := by
  have hpos := hok.num_pos ri hri
  have hle := hok.num_le ri hri
  have hlen := h.length
  refine ⟨List.length_set.trans hlen, fun ri' hri' hne => ?_, fun i m' him => ?_⟩
  · by_cases heq : ri' = ri
    · subst heq
      rw [List.getElem?_set_self (by omega), Function.update_self]
    · have hnum : ri.rangesrvNum - 1 ≠ ri'.rangesrvNum - 1 := by
        intro he
        have hpos' := hok.num_pos ri' hri'
        exact heq (hok.num_inj ri' hri' ri hri (by omega))
      have hrank : ri'.rank ≠ ri.rank := fun he => heq (hok.rank_inj ri' hri' ri hri he)
      rw [List.getElem?_set_ne hnum, h.get ri' hri' hne, Function.update_of_ne hrank]
  · by_cases hi : ri.rangesrvNum - 1 = i
    · exact ⟨ri, hri, hown, hi⟩
    · rw [List.getElem?_set_ne hi] at him
      exact h.mem i m' him

/-- A message of the array is that of a server. -/
theorem Listed.exists_server (h : Listed md message list) {i : ℕ} {m : M}
    (hi : list[i]? = some (some m)) : ∃ ri ∈ md.rangesrvs, ri.rank ≠ md.mdhimRank ∧
      ri.rangesrvNum - 1 = i ∧ message ri.rank = some m := by
  obtain ⟨ri, hri, hne, rfl⟩ := h.mem i m hi
  rw [h.get ri hri hne, Option.some.injEq] at hi
  exact ⟨ri, hri, hne, rfl, hi⟩

/-- The array has the messages of the other ranks. -/
theorem Listed.mem_reduceOption (h : Listed md message list)
    (hserved : ∀ rank m, message rank = some m → ∃ ri ∈ md.rangesrvs, ri.rank = rank) {m : M} :
    m ∈ list.reduceOption ↔ ∃ rank, rank ≠ md.mdhimRank ∧ message rank = some m := by
  rw [List.reduceOption_mem_iff]
  constructor
  · intro hm
    obtain ⟨i, hi⟩ := List.getElem?_of_mem hm
    obtain ⟨ri, -, hne, -, hri⟩ := h.exists_server hi
    exact ⟨ri.rank, hne, hri⟩
  · rintro ⟨rank, hne, hm⟩
    obtain ⟨ri, hri, rfl⟩ := hserved rank m hm
    have hentry := h.get ri hri hne
    rw [hm] at hentry
    exact List.mem_of_getElem? hentry

/-- No two messages of the array are for one rank. -/
theorem Listed.nodup_map (h : Listed md message list) (hok : md.Ok) {rankOf : M → ℕ}
    (hrank : ∀ rank m, message rank = some m → rankOf m = rank) :
    (list.reduceOption.map rankOf).Nodup := by
  refine nodup_map_reduceOption fun i j m m' hi hj heq => ?_
  obtain ⟨ri, hri, -, rfl, hrm⟩ := h.exists_server hi
  obtain ⟨rj, hrj, -, rfl, hrm'⟩ := h.exists_server hj
  rw [hok.rank_inj ri hri rj hrj (by rw [← hrank _ m hrm, ← hrank _ m' hrm', heq])]

theorem list_bulkLoop (hok : md.Ok)
    (hserver : ∀ r ∈ recs, ∀ ri, server r = some ri → ri ∈ md.rangesrvs) :
    Listed md (groups (serverRank server) create push recs)
      (bulkLoop md server create push recs).list := by
  induction recs using List.reverseRecOn with
  | nil => exact listed_replicate hok
  | append_singleton recs r ih =>
    have h := ih fun r' hr' => hserver r' (List.mem_append_left _ hr')
    rw [bulkLoop_concat, groups_concat, bulkRound, joinGroup, serverRank]
    cases hr : server r with
    | none => exact h
    | some ri =>
      have hri := hserver r (by simp) ri hr
      dsimp only [Option.map_some]
      by_cases hown : ri.rank = md.mdhimRank
      · rw [if_neg (not_not.mpr hown), hown]
        exact h.update_own _
      · rw [if_pos hown, h.get ri hri hown, Option.join_some]
        exact h.set hok hri hown _

/-! ## Partitions -/

/-- The messages partition the records with a server. `rankOf` is the rank that a message is for, and
`holds` says that its arrays hold some records, in order. -/
structure Partitioned (md : Mdhim) (server : R → Option RangesrvInfo) (recs : List R)
    (rankOf : M → ℕ) (holds : M → List R → Prop) (b : BulkArray M) : Prop where
  holds : ∀ m ∈ b.messages, holds m (recordsFor (serverRank server) recs (rankOf m))
  nonempty : ∀ m ∈ b.messages, recordsFor (serverRank server) recs (rankOf m) ≠ []
  oneEach : (b.messages.map rankOf).Nodup
  own : ∀ m ∈ b.own, rankOf m = md.mdhimRank
  others : ∀ m ∈ b.list.reduceOption, rankOf m ≠ md.mdhimRank
  unique : ∀ r ∈ recs, ∀ ri, server r = some ri → ∃! m, m ∈ b.messages ∧ rankOf m = ri.rank
  all : (b.messages.flatMap fun m => recordsFor (serverRank server) recs (rankOf m)).Perm
    (recs.filter fun r => (server r).isSome)

/-- Messages that keep the rank they are created for, and hold what they were given. -/
structure MessageKind (create : ℕ → M) (push : M → R → M) (rankOf : M → ℕ)
    (holds : M → List R → Prop) : Prop where
  rank_create : ∀ rank, rankOf (create rank) = rank
  rank_push : ∀ m r, rankOf (push m r) = rankOf m
  holds_create : ∀ rank, holds (create rank) []
  holds_push : ∀ m l r, holds m l → holds (push m r) (l ++ [r])

variable {rankOf : M → ℕ} {holds : M → List R → Prop} {rank : ℕ} {m : M}

theorem MessageKind.foldl (hk : MessageKind create push rankOf holds) (l : List R) (rank : ℕ) :
    rankOf (l.foldl push (create rank)) = rank ∧ holds (l.foldl push (create rank)) l := by
  induction l using List.reverseRecOn with
  | nil => exact ⟨hk.rank_create rank, hk.holds_create rank⟩
  | append_singleton l r ih =>
    rw [List.foldl_append]
    exact ⟨(hk.rank_push _ r).trans ih.1, hk.holds_push _ _ r ih.2⟩

/-- The message of a rank. -/
theorem MessageKind.group (hk : MessageKind create push rankOf holds)
    (h : groups (serverRank server) create push recs rank = some m) :
    rankOf m = rank ∧ holds m (recordsFor (serverRank server) recs rank) ∧
      recordsFor (serverRank server) recs rank ≠ [] := by
  rw [groups_eq] at h
  split_ifs at h with hne
  obtain rfl := Option.some.inj h
  exact ⟨(hk.foldl _ rank).1, (hk.foldl _ rank).2, hne⟩

theorem MessageKind.rank_own (hk : MessageKind create push rankOf holds)
    (h : (bulkLoop md server create push recs).own = some m) : rankOf m = md.mdhimRank := by
  rw [own_bulkLoop] at h
  exact (hk.group h).1

/-- The server of a group. -/
theorem exists_server_of_group
    (hserver : ∀ r ∈ recs, ∀ ri, server r = some ri → ri ∈ md.rangesrvs) (rank : ℕ) (m : M)
    (h : groups (serverRank server) create push recs rank = some m) :
    ∃ ri ∈ md.rangesrvs, ri.rank = rank := by
  rw [groups_eq] at h
  split_ifs at h with hne
  obtain ⟨r, hr⟩ := List.exists_mem_of_ne_nil _ hne
  obtain ⟨hmem, hrank⟩ := mem_recordsFor.mp hr
  obtain ⟨ri, hri, rfl⟩ := Option.map_eq_some_iff.mp hrank
  exact ⟨ri, hserver r hmem ri hri, rfl⟩

/-- The messages of the array are the groups of the other ranks. -/
theorem mem_list_bulkLoop (hok : md.Ok)
    (hserver : ∀ r ∈ recs, ∀ ri, server r = some ri → ri ∈ md.rangesrvs) :
    m ∈ (bulkLoop md server create push recs).list.reduceOption ↔
      ∃ rank, rank ≠ md.mdhimRank ∧ groups (serverRank server) create push recs rank = some m :=
  (list_bulkLoop hok hserver).mem_reduceOption (exists_server_of_group hserver)

/-- The messages are the groups of the ranks. -/
theorem mem_messages_bulkLoop (hok : md.Ok)
    (hserver : ∀ r ∈ recs, ∀ ri, server r = some ri → ri ∈ md.rangesrvs) :
    m ∈ (bulkLoop md server create push recs).messages ↔
      ∃ rank, groups (serverRank server) create push recs rank = some m := by
  rw [BulkArray.messages, List.mem_append, Option.mem_toList, own_bulkLoop,
    mem_list_bulkLoop hok hserver]
  constructor
  · rintro (⟨rank, -, hm⟩ | hm)
    · exact ⟨rank, hm⟩
    · exact ⟨md.mdhimRank, hm⟩
  · rintro ⟨rank, hm⟩
    by_cases hown : rank = md.mdhimRank
    · exact Or.inr (hown ▸ hm)
    · exact Or.inl ⟨rank, hown, hm⟩

theorem MessageKind.rank_list (hk : MessageKind create push rankOf holds) (hok : md.Ok)
    (hserver : ∀ r ∈ recs, ∀ ri, server r = some ri → ri ∈ md.rangesrvs)
    (h : m ∈ (bulkLoop md server create push recs).list.reduceOption) :
    rankOf m ≠ md.mdhimRank := by
  obtain ⟨rank, hne, hm⟩ := (mem_list_bulkLoop hok hserver).mp h
  rw [(hk.group hm).1]
  exact hne

/-- No two messages are for one rank. -/
theorem MessageKind.nodup_rankOf (hk : MessageKind create push rankOf holds) (hok : md.Ok)
    (hserver : ∀ r ∈ recs, ∀ ri, server r = some ri → ri ∈ md.rangesrvs) :
    ((bulkLoop md server create push recs).messages.map rankOf).Nodup := by
  rw [BulkArray.messages, List.map_append, List.nodup_append]
  refine ⟨(list_bulkLoop hok hserver).nodup_map hok fun rank m hm => (hk.group hm).1, ?_, ?_⟩
  · cases (bulkLoop md server create push recs).own <;> simp
  · intro a ha a' ha'
    obtain ⟨m, hm, rfl⟩ := List.mem_map.mp ha
    obtain ⟨m', hm', rfl⟩ := List.mem_map.mp ha'
    rw [hk.rank_own (Option.mem_toList.mp hm')]
    exact hk.rank_list hok hserver hm

/-- The loop partitions the records. -/
theorem partitioned_bulkLoop (hk : MessageKind create push rankOf holds) (hok : md.Ok)
    (hserver : ∀ r ∈ recs, ∀ ri, server r = some ri → ri ∈ md.rangesrvs) :
    Partitioned md server recs rankOf holds (bulkLoop md server create push recs) := by
  have hmem {m : M} := @mem_messages_bulkLoop R M md server create push recs m hok hserver
  have honce := hk.nodup_rankOf hok hserver
  have hcovered : ∀ r ∈ recs, ∀ rank, serverRank server r = some rank →
      ∃ m, m ∈ (bulkLoop md server create push recs).messages ∧ rankOf m = rank := by
    intro r hr rank hrank
    have hne : recordsFor (serverRank server) recs rank ≠ [] :=
      List.ne_nil_of_mem (mem_recordsFor.mpr ⟨hr, hrank⟩)
    exact ⟨_, hmem.mpr ⟨rank, by rw [groups_eq, if_neg hne]⟩, (hk.foldl _ rank).1⟩
  refine ⟨fun m hm => ?_, fun m hm => ?_, honce, fun m hm => hk.rank_own hm,
    fun m hm => hk.rank_list hok hserver hm, fun r hr ri hri => ?_, ?_⟩
  · obtain ⟨rank, hg⟩ := hmem.mp hm
    rw [(hk.group hg).1]
    exact (hk.group hg).2.1
  · obtain ⟨rank, hg⟩ := hmem.mp hm
    rw [(hk.group hg).1]
    exact (hk.group hg).2.2
  · obtain ⟨m, hm, hrm⟩ := hcovered r hr ri.rank (by rw [serverRank, hri]; rfl)
    refine ⟨m, ⟨hm, hrm⟩, fun m' ⟨hm', hrm'⟩ => ?_⟩
    exact List.inj_on_of_nodup_map honce hm' hm (hrm'.trans hrm.symm)
  · have hperm := perm_flatMap_recordsFor honce fun r hr rank hrank => by
      obtain ⟨m, hm, rfl⟩ := hcovered r hr rank hrank
      exact List.mem_map_of_mem hm
    rw [List.flatMap_map] at hperm
    refine hperm.trans (List.Perm.of_eq (List.filter_congr fun r _ => ?_))
    rw [serverRank, Option.isSome_map]

end MpiToShmem
