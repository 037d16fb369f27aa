import MpiToShmem.Mdhim.BulkLoop

/-!
# Bulk calls on the client

`mdhimBPut`, `mdhimBGet` and `mdhimBDelete` sort their records into one message for each range
server, and one to ourselves where this rank is the server. A record whose key has no server is
left out. Then all messages to other ranks are sent at once; one that does not pack is left out.

1. `own_bulkLists` and `mem_list_bulkLists`: each message holds the records of its server, in order,
   and there is one for every server that has records.
2. `sendAllRangesrvWork_eq`: what is sent, and when the call reports an error.
-/

namespace MpiToShmem

open Kit

/-- A bulk message while it is built: the rank of its server and its records. -/
structure BulkMsg (R : Type) where
  serverRank : ℕ
  recs : List R
deriving DecidableEq

/-- The messages of a call: the array with one entry for each range server, and the message to
ourselves. -/
structure BulkLists (R : Type) where
  list : List (Option (BulkMsg R))
  own : Option (BulkMsg R)

variable {R : Type} (md : Mdhim) (key : R → List UInt8)

/-- A record joins the message to its server, which is created where there is none. -/
def addRecord (m : Option (BulkMsg R)) (rank : ℕ) (r : R) : BulkMsg R :=
  match m with
  | none => ⟨rank, [r]⟩
  | some m => { m with recs := m.recs ++ [r] }

/-- One round of the loop over the records. -/
def BulkLists.add (b : BulkLists R) (r : R) : BulkLists R :=
  match getRangeServer md (some (key r)) with
  | none => b
  | some ri =>
    if ri.rank ≠ md.mdhimRank then
      let i := ri.rangesrvNum - 1
      { b with list := b.list.set i (some (addRecord b.list[i]?.join ri.rank r)) }
    else { b with own := some (addRecord b.own ri.rank r) }

/-- The messages after the loop. -/
def bulkLists (recs : List R) : BulkLists R :=
  recs.foldl (BulkLists.add md key) ⟨List.replicate md.numRangesrvs none, none⟩

/-- `send_all_rangesrv_work`: the messages that are sent, and the error code. -/
def sendAllRangesrvWork (packs : BulkMsg R → Bool) :
    List (Option (BulkMsg R)) → List (BulkMsg R) × ℤ
  | [] => ([], mdhimSuccess)
  | none :: ms => sendAllRangesrvWork packs ms
  | some m :: ms =>
    let (sent, ret) := sendAllRangesrvWork packs ms
    if packs m then (m :: sent, ret) else (sent, mdhimError)

/-! ## What is sent -/

variable {md key} {recs : List R} {packs : BulkMsg R → Bool}

/-- The messages that pack are sent, and an error is reported if there is another. -/
theorem sendAllRangesrvWork_eq (ms : List (Option (BulkMsg R))) :
    sendAllRangesrvWork packs ms =
      (ms.reduceOption.filter packs,
        if ms.reduceOption.all packs then mdhimSuccess else mdhimError) := by
  induction ms with
  | nil => rfl
  | cons m ms ih =>
    cases m with
    | none =>
      rw [sendAllRangesrvWork, ih, List.reduceOption_cons_of_none]
    | some m =>
      rw [sendAllRangesrvWork, ih, List.reduceOption_cons_of_some, List.all_cons]
      cases hp : packs m <;> simp [hp]

/-! ## What the messages hold -/

variable (md key) in
/-- The records whose keys have their server on this rank. -/
def recsTo (recs : List R) (rank : ℕ) : List R :=
  recs.filter fun r => (getRangeServer md (some (key r))).map RangesrvInfo.rank = some rank

/-- The message with these records. -/
def msgOf (rank : ℕ) (l : List R) : Option (BulkMsg R) := if l = [] then none else some ⟨rank, l⟩

theorem mem_recsTo {r : R} {rank : ℕ} : r ∈ recsTo md key recs rank ↔
    r ∈ recs ∧ (getRangeServer md (some (key r))).map RangesrvInfo.rank = some rank := by
  simp [recsTo]

/-! ## The loop over such messages -/

/-- A message without records yet. -/
def BulkMsg.create (rank : ℕ) : BulkMsg R := ⟨rank, []⟩

/-- One more record. -/
def BulkMsg.push (m : BulkMsg R) (r : R) : BulkMsg R := { m with recs := m.recs ++ [r] }

theorem addRecord_eq (m : Option (BulkMsg R)) (rank : ℕ) (r : R) :
    addRecord m rank r = (m.getD (BulkMsg.create rank)).push r := by
  cases m <;> rfl

theorem foldl_push (m : BulkMsg R) (l : List R) :
    l.foldl BulkMsg.push m = ⟨m.serverRank, m.recs ++ l⟩ := by
  induction l generalizing m with
  | nil => simp
  | cons r l ih =>
    rw [List.foldl_cons, ih]
    simp [BulkMsg.push]

variable (md key) in
/-- The loop with `get_range_server`. -/
def bulkMsgs (recs : List R) : BulkArray (BulkMsg R) :=
  bulkLoop md (fun r => getRangeServer md (some (key r))) BulkMsg.create BulkMsg.push recs

theorem bulkMsgs_concat (r : R) : bulkMsgs md key (recs ++ [r]) =
    bulkRound md (fun r => getRangeServer md (some (key r))) BulkMsg.create BulkMsg.push
      (bulkMsgs md key recs) r := bulkLoop_concat r

theorem bulkLists_eq :
    bulkLists md key recs = ⟨(bulkMsgs md key recs).list, (bulkMsgs md key recs).own⟩ := by
  induction recs using List.reverseRecOn with
  | nil => rfl
  | append_singleton recs r ih =>
    have hstep : bulkLists md key (recs ++ [r]) = (bulkLists md key recs).add md key r := by
      rw [bulkLists, List.foldl_append]
      rfl
    rw [hstep, ih, bulkMsgs_concat, BulkLists.add, bulkRound]
    cases getRangeServer md (some (key r)) with
    | none => rfl
    | some ri =>
      dsimp only
      rw [addRecord_eq, addRecord_eq]
      split_ifs <;> rfl

/-- The groups of this loop. -/
theorem groups_msgOf (rank : ℕ) :
    groups (serverRank fun r => getRangeServer md (some (key r))) BulkMsg.create BulkMsg.push recs
      rank = msgOf rank (recsTo md key recs rank) := by
  rw [groups_eq, msgOf, foldl_push]
  rfl

/-- The message to ourselves. -/
theorem own_bulkLists :
    (bulkLists md key recs).own = msgOf md.mdhimRank (recsTo md key recs md.mdhimRank) := by
  rw [bulkLists_eq, ← groups_msgOf]
  exact own_bulkLoop

/-- The array has the messages to the other servers. -/
theorem list_bulkLists (hok : md.Ok) :
    Listed md (fun rank => msgOf rank (recsTo md key recs rank)) (bulkLists md key recs).list := by
  rw [bulkLists_eq]
  simp only [← groups_msgOf]
  exact list_bulkLoop hok fun _ _ _ hri => mem_rangesrvs_of_getRangeServer hri

theorem msgOf_eq_some {rank : ℕ} {m : BulkMsg R} :
    msgOf rank recs = some m ↔ m.serverRank = rank ∧ m.recs = recs ∧ m.recs ≠ [] := by
  unfold msgOf
  split_ifs with hnil
  · simp [hnil]
  · rw [Option.some.injEq]
    constructor
    · rintro rfl
      exact ⟨rfl, rfl, hnil⟩
    · rintro ⟨rfl, rfl, -⟩
      rfl

/-- There is a message to every other rank with records, and it holds these. -/
theorem mem_reduceOption_bulkLists (hok : md.Ok) {m : BulkMsg R} :
    m ∈ (bulkLists md key recs).list.reduceOption ↔ m.serverRank ≠ md.mdhimRank ∧
      m.recs = recsTo md key recs m.serverRank ∧ m.recs ≠ [] := by
  have hserved : ∀ rank m, msgOf rank (recsTo md key recs rank) = some m →
      ∃ ri ∈ md.rangesrvs, ri.rank = rank := by
    intro rank m hm
    obtain ⟨-, hrecs, hnil⟩ := msgOf_eq_some.mp hm
    obtain ⟨r, hr⟩ := List.exists_mem_of_ne_nil _ hnil
    rw [hrecs] at hr
    obtain ⟨ri, hri, hrank⟩ := Option.map_eq_some_iff.mp (mem_recsTo.mp hr).2
    exact ⟨ri, mem_rangesrvs_of_getRangeServer hri, hrank⟩
  rw [(list_bulkLists hok).mem_reduceOption hserved]
  constructor
  · rintro ⟨rank, hne, hm⟩
    obtain ⟨rfl, hrecs, hnil⟩ := msgOf_eq_some.mp hm
    exact ⟨hne, hrecs, hnil⟩
  · rintro ⟨hne, hrecs, hnil⟩
    exact ⟨m.serverRank, hne, msgOf_eq_some.mpr ⟨rfl, hrecs, hnil⟩⟩

/-- No two messages of the array go to one rank. -/
theorem nodup_bulkLists (hok : md.Ok) :
    ((bulkLists md key recs).list.reduceOption.map BulkMsg.serverRank).Nodup :=
  (list_bulkLists hok).nodup_map hok fun _ _ hm => (msgOf_eq_some.mp hm).1

end MpiToShmem
