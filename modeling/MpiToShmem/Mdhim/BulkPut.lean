import MpiToShmem.Mdhim.Bulk
import MpiToShmem.Mdhim.Codec
import MpiToShmem.Mdhim.IntKeys
import MpiToShmem.Mdhim.RangeServer

/-!
# Bulk puts

`mdhimBPut` with the range servers that handle its messages. The result is the list of the replies,
an empty one for NULL; `handled` records what the servers were given.

1. `handleAll_eq`: every message that is sent is handled once, by a server that no other message of
   the call reaches.
2. `noSilentDrop_iff`: a list without an error means that every record was stored exactly when no
   record is dropped on the way, or a failed write is on the list.
-/

namespace MpiToShmem

open Kit

variable {K S : Type} [LinearOrder K] [LinearOrder S]

/-- A bulk put that a range server has handled, with the error code of its reply. -/
structure BputDone (K : Type) where
  serverRank : ℕ
  recs : List (K × Value)
  error : ℤ
deriving DecidableEq

/-- `mdhim_brm_t`, without its link. -/
structure Brm where
  error : ℤ
  mtype : ℤ
  serverRank : ℕ
deriving DecidableEq

/-- What a bulk put leaves behind and returns. -/
structure BputOutcome (K S : Type) [LinearOrder K] where
  servers : ℕ → RangeServer K S
  handled : List (BputDone K)
  brms : List Brm

variable (κ : Keying K S) (append : Bool) (io : ℕ → StoreIo) (bytes : K → List UInt8) (md : Mdhim)

/-- The element of the returned list for a reply of type `MDHIM_RECV`. -/
def BputDone.brm (d : BputDone K) : Brm := ⟨d.error, 8, d.serverRank⟩

/-- A range server handles a bulk put. -/
def handleBput (servers : ℕ → RangeServer K S) (m : BulkMsg (K × Value)) :
    Option ((ℕ → RangeServer K S) × BputDone K) := do
  let (s, error) ← rangeServerBput κ append (io m.serverRank) (servers m.serverRank) m.recs
  return (Function.update servers m.serverRank s, ⟨m.serverRank, m.recs, error⟩)

/-- The range servers handle what was sent. -/
def handleAll (servers : ℕ → RangeServer K S) :
    List (BulkMsg (K × Value)) → Option ((ℕ → RangeServer K S) × List (BputDone K))
  | [] => some (servers, [])
  | m :: ms => do
    let (servers, d) ← handleBput κ append io servers m
    let (servers, ds) ← handleAll servers ms
    return (servers, d :: ds)

omit [LinearOrder K] in
/-- The records of a message as bytes. -/
def keyValues (recs : List (K × Value)) : List KeyValue := recs.map fun r => (bytes r.1, r.2)

/-- The bulk put message packs. -/
def bputPacks (m : BulkMsg (K × Value)) : Bool :=
  (packBputMessage ⟨2, m.serverRank, 0, keyValues bytes m.recs⟩).isSome

/-- `client_bput`: when a message does not pack, it returns NULL after sending the others. -/
def clientBput (servers : ℕ → RangeServer K S) (bpmList : List (Option (BulkMsg (K × Value)))) :
    Option (BputOutcome K S) := do
  let (sent, ret) := sendAllRangesrvWork (bputPacks bytes) bpmList
  let (servers, done) ← handleAll κ append io servers sent
  return ⟨servers, done, if ret = mdhimSuccess then done.map BputDone.brm else []⟩

/-- `local_client_bput`, which returns NULL for a message that is too large. -/
def localClientBput (servers : ℕ → RangeServer K S) (bpm : BulkMsg (K × Value)) :
    Option ((ℕ → RangeServer K S) × Option (BputDone K)) :=
  if layoutSize Bputm.layout + recLens (keyValues bytes bpm.recs) > mdhimMaxMsgSize then
    some (servers, none)
  else (handleBput κ append io servers bpm).map fun r => (r.1, some r.2)

/-- `mdhimBPut`. `none` where a handler has no result. -/
def mdhimBPut (servers : ℕ → RangeServer K S) (recs : List (K × Value)) :
    Option (BputOutcome K S) :=
  if maxBulkOps < recs.length then some ⟨servers, [], []⟩
  else do
    let b := bulkLists md (fun r => bytes r.1) recs
    let out ← clientBput κ append io bytes servers b.list
    match b.own with
    | none => return out
    | some lbpm =>
      let (servers, rm) ← localClientBput κ append io bytes out.servers lbpm
      return ⟨servers, out.handled ++ rm.toList, (rm.map BputDone.brm).toList ++ out.brms⟩

/-! ## What the servers do -/

variable {κ append io bytes md} {servers servers' : ℕ → RangeServer K S}
  {m : BulkMsg (K × Value)} {ms : List (BulkMsg (K × Value))} {d : BputDone K}
  {ds : List (BputDone K)} {recs : List (K × Value)}

/-- The error code of a batch. -/
def batchError (io : StoreIo) : ℤ := if io.put then mdhimSuccess else mdhimDbError

theorem batchError_eq_success {io : StoreIo} : batchError io = mdhimSuccess ↔ io.put = true := by
  unfold batchError
  cases io.put <;> simp [mdhimSuccess, mdhimDbError]

/-- The database of the server, with the records of the message written. -/
def Written (append : Bool) (io : ℕ → StoreIo) (before after : ℕ → RangeServer K S)
    (d : BputDone K) : Prop :=
  ∃ brecs, bputRecs append (io d.serverRank) (before d.serverRank).db 0 d.recs = some brecs ∧
    (after d.serverRank).db = putAll (before d.serverRank).db (brecs.map fun r => (r.key, r.value))

theorem handleBput_eq (h : handleBput κ append io servers m = some (servers', d)) :
    d = ⟨m.serverRank, m.recs, batchError (io m.serverRank)⟩ ∧
      (∀ rank ≠ m.serverRank, servers' rank = servers rank) ∧
      (d.error = mdhimSuccess → Written append io servers servers' d) := by
  obtain ⟨⟨s, error⟩, hs, h⟩ := Option.bind_eq_some_iff.mp h
  obtain ⟨rfl, rfl⟩ := Prod.mk.inj (Option.some.inj h)
  have hframe : ∀ rank ≠ m.serverRank,
      Function.update servers m.serverRank s rank = servers rank :=
    fun rank hne => Function.update_of_ne hne _ _
  obtain ⟨-, brecs, hb, ⟨hp, rfl, -⟩ | ⟨hp, rfl, rfl⟩⟩ := rangeServerBput_cases hs
  · refine ⟨by simp [batchError, hp], hframe, fun he => ?_⟩
    exact absurd (show mdhimDbError = mdhimSuccess from he) (by decide)
  · refine ⟨by simp [batchError, hp], hframe, fun _ => ⟨brecs, hb, ?_⟩⟩
    dsimp only
    rw [Function.update_self]

/-- Every message is handled by its server, which no other message reaches. -/
theorem handleAll_eq (hnodup : (ms.map BulkMsg.serverRank).Nodup)
    (h : handleAll κ append io servers ms = some (servers', ds)) :
    ds = ms.map (fun m => ⟨m.serverRank, m.recs, batchError (io m.serverRank)⟩) ∧
      (∀ rank, rank ∉ ms.map BulkMsg.serverRank → servers' rank = servers rank) ∧
      ∀ d ∈ ds, d.error = mdhimSuccess → Written append io servers servers' d := by
  induction ms generalizing servers ds with
  | nil =>
    obtain ⟨rfl, rfl⟩ := Prod.mk.inj (Option.some.inj h)
    exact ⟨rfl, fun _ _ => rfl, fun d hd => (List.not_mem_nil hd).elim⟩
  | cons m ms ih =>
    obtain ⟨⟨servers₁, d₁⟩, h₁, h⟩ := Option.bind_eq_some_iff.mp h
    obtain ⟨⟨servers₂, ds₂⟩, h₂, h⟩ := Option.bind_eq_some_iff.mp h
    obtain ⟨rfl, rfl⟩ := Prod.mk.inj (Option.some.inj h)
    obtain ⟨hm, hnodup⟩ := List.nodup_cons.mp hnodup
    obtain ⟨hd₁, hframe₁, hw₁⟩ := handleBput_eq h₁
    obtain ⟨hds₂, hframe₂, hw₂⟩ := ih hnodup h₂
    refine ⟨by rw [hd₁, hds₂, List.map_cons], fun rank hrank => ?_, fun d hd he => ?_⟩
    · rw [List.map_cons, List.mem_cons, not_or] at hrank
      rw [hframe₂ rank hrank.2, hframe₁ rank hrank.1]
    · rcases List.mem_cons.mp hd with rfl | hd
      · obtain ⟨brecs, hb, hdb⟩ := hw₁ he
        refine ⟨brecs, hb, ?_⟩
        have hrank : d.serverRank = m.serverRank := by rw [hd₁]
        rw [hframe₂ d.serverRank (by rw [hrank]; exact hm), hdb]
      · obtain ⟨brecs, hb, hdb⟩ := hw₂ d hd he
        have hne : d.serverRank ≠ m.serverRank := by
          rintro heq
          rw [hds₂] at hd
          obtain ⟨m', hm', rfl⟩ := List.mem_map.mp hd
          exact hm (heq ▸ List.mem_map_of_mem hm')
        rw [hframe₁ _ hne] at hb hdb
        exact ⟨brecs, hb, hdb⟩

/-! ## What the call leaves behind -/

variable (bytes md) in
/-- The records of the call whose server is on this rank. -/
abbrev recordsTo (recs : List (K × Value)) (rank : ℕ) : List (K × Value) :=
  recsTo md (fun r => bytes r.1) recs rank

variable (bytes md) in
/-- The message to ourselves is not too large. -/
def LocalFits (recs : List (K × Value)) : Prop :=
  layoutSize Bputm.layout + recLens (keyValues bytes (recordsTo bytes md recs md.mdhimRank)) ≤
    mdhimMaxMsgSize

variable (bytes md) in
/-- The message to this other rank packs. -/
def Packs (recs : List (K × Value)) (rank : ℕ) : Prop :=
  bputPacks bytes ⟨rank, recordsTo bytes md recs rank⟩ = true

variable (bytes md) in
/-- Every message to another rank packs. -/
def RemotePack (recs : List (K × Value)) : Prop :=
  ∀ rank ≠ md.mdhimRank, recordsTo bytes md recs rank ≠ [] → Packs bytes md recs rank

/-- The messages that the servers handle, and the replies that are returned. -/
structure BputSpec (append : Bool) (io : ℕ → StoreIo) (bytes : K → List UInt8) (md : Mdhim)
    (servers : ℕ → RangeServer K S) (recs : List (K × Value)) (out : BputOutcome K S) : Prop where
  handled : ∀ d, d ∈ out.handled ↔ ∃ rank, recordsTo bytes md recs rank ≠ [] ∧
    (if rank = md.mdhimRank then LocalFits bytes md recs else Packs bytes md recs rank) ∧
    d = ⟨rank, recordsTo bytes md recs rank, batchError (io rank)⟩
  brms : ∀ brm, brm ∈ out.brms ↔ ∃ rank, recordsTo bytes md recs rank ≠ [] ∧
    (if rank = md.mdhimRank then LocalFits bytes md recs else RemotePack bytes md recs) ∧
    brm = ⟨batchError (io rank), 8, rank⟩
  written : ∀ d ∈ out.handled, d.error = mdhimSuccess → Written append io servers out.servers d

omit [LinearOrder K] in
theorem mem_bulkLists_iff (hok : md.Ok) (m : BulkMsg (K × Value)) :
    m ∈ (bulkLists md (fun r => bytes r.1) recs).list.reduceOption ↔
      m.serverRank ≠ md.mdhimRank ∧ m.recs = recordsTo bytes md recs m.serverRank ∧ m.recs ≠ [] :=
  mem_reduceOption_bulkLists hok

omit [LinearOrder K] in
/-- The messages that pack. -/
theorem mem_filter_bputPacks (hok : md.Ok) (m : BulkMsg (K × Value)) :
    m ∈ (bulkLists md (fun r => bytes r.1) recs).list.reduceOption.filter (bputPacks bytes) ↔
      ∃ rank ≠ md.mdhimRank, recordsTo bytes md recs rank ≠ [] ∧ Packs bytes md recs rank ∧
        m = ⟨rank, recordsTo bytes md recs rank⟩ := by
  rw [List.mem_filter, mem_bulkLists_iff hok]
  constructor
  · rintro ⟨⟨hne, hrecs, hnil⟩, hp⟩
    have heq : m = ⟨m.serverRank, recordsTo bytes md recs m.serverRank⟩ := by
      rw [← hrecs]
    refine ⟨m.serverRank, hne, by rw [← hrecs]; exact hnil, ?_, heq⟩
    unfold Packs
    rw [← heq]
    exact hp
  · rintro ⟨rank, hne, hnil, hp, rfl⟩
    exact ⟨⟨hne, rfl, hnil⟩, hp⟩

omit [LinearOrder K] in
theorem all_bputPacks_iff (hok : md.Ok) :
    (bulkLists md (fun r => bytes r.1) recs).list.reduceOption.all (bputPacks bytes) = true ↔
      RemotePack bytes md recs := by
  rw [List.all_eq_true]
  constructor
  · intro hall rank hne hnil
    exact hall _ ((mem_bulkLists_iff hok _).mpr ⟨hne, rfl, hnil⟩)
  · intro hp m hm
    obtain ⟨hne, hrecs, hnil⟩ := (mem_bulkLists_iff hok m).mp hm
    rw [hrecs] at hnil
    have hpack := hp m.serverRank hne hnil
    unfold Packs at hpack
    rwa [← hrecs] at hpack

/-- The remote half of the call. -/
theorem clientBput_spec (hok : md.Ok) {out : BputOutcome K S}
    (h : clientBput κ append io bytes servers (bulkLists md (fun r => bytes r.1) recs).list =
      some out) :
    (∀ d, d ∈ out.handled ↔ ∃ rank ≠ md.mdhimRank, recordsTo bytes md recs rank ≠ [] ∧
      Packs bytes md recs rank ∧
      d = ⟨rank, recordsTo bytes md recs rank, batchError (io rank)⟩) ∧
    (∀ brm, brm ∈ out.brms ↔ ∃ rank ≠ md.mdhimRank, recordsTo bytes md recs rank ≠ [] ∧
      RemotePack bytes md recs ∧ brm = ⟨batchError (io rank), 8, rank⟩) ∧
    out.servers md.mdhimRank = servers md.mdhimRank ∧
    ∀ d ∈ out.handled, d.error = mdhimSuccess → Written append io servers out.servers d := by
  unfold clientBput at h
  rw [sendAllRangesrvWork_eq] at h
  obtain ⟨⟨servers₁, done⟩, hdone, h⟩ := Option.bind_eq_some_iff.mp h
  obtain rfl := Option.some.inj h
  obtain ⟨hds, hframe, hw⟩ := handleAll_eq
    ((nodup_bulkLists hok).sublist (List.filter_sublist.map BulkMsg.serverRank)) hdone
  have hhandled : ∀ d, d ∈ done ↔ ∃ rank ≠ md.mdhimRank, recordsTo bytes md recs rank ≠ [] ∧
      Packs bytes md recs rank ∧
      d = ⟨rank, recordsTo bytes md recs rank, batchError (io rank)⟩ := by
    intro d
    rw [hds, List.mem_map]
    constructor
    · rintro ⟨m, hm, rfl⟩
      obtain ⟨rank, hne, hnil, hp, rfl⟩ := (mem_filter_bputPacks hok m).mp hm
      exact ⟨rank, hne, hnil, hp, rfl⟩
    · rintro ⟨rank, hne, hnil, hp, rfl⟩
      exact ⟨_, (mem_filter_bputPacks hok _).mpr ⟨rank, hne, hnil, hp, rfl⟩, rfl⟩
  refine ⟨hhandled, fun brm => ?_, ?_, hw⟩
  · dsimp only
    by_cases hp : RemotePack bytes md recs
    · rw [if_pos ((all_bputPacks_iff hok).mpr hp), if_pos rfl, List.mem_map]
      constructor
      · rintro ⟨d, hd, rfl⟩
        obtain ⟨rank, hne, hnil, -, rfl⟩ := (hhandled d).mp hd
        exact ⟨rank, hne, hnil, hp, rfl⟩
      · rintro ⟨rank, hne, hnil, -, rfl⟩
        exact ⟨_, (hhandled _).mpr ⟨rank, hne, hnil, hp rank hne hnil, rfl⟩, rfl⟩
    · rw [if_neg (fun ha => hp ((all_bputPacks_iff hok).mp ha)), if_neg (by decide)]
      constructor
      · exact fun hb => (List.not_mem_nil hb).elim
      · exact fun ⟨_, _, _, hp', _⟩ => absurd hp' hp
  · apply hframe
    rintro hin
    obtain ⟨m, hm, hrank⟩ := List.mem_map.mp hin
    obtain ⟨rank, hne, -, -, rfl⟩ := (mem_filter_bputPacks hok m).mp hm
    exact hne hrank

/-- The local half of the call. -/
theorem localClientBput_spec {rm : Option (BputDone K)}
    (h : localClientBput κ append io bytes servers
      ⟨md.mdhimRank, recordsTo bytes md recs md.mdhimRank⟩ = some (servers', rm)) :
    (∀ d, rm = some d ↔ LocalFits bytes md recs ∧
      d = ⟨md.mdhimRank, recordsTo bytes md recs md.mdhimRank, batchError (io md.mdhimRank)⟩) ∧
    (∀ rank ≠ md.mdhimRank, servers' rank = servers rank) ∧
    ∀ d, rm = some d → d.error = mdhimSuccess → Written append io servers servers' d := by
  unfold localClientBput at h
  dsimp only at h
  by_cases hfits : LocalFits bytes md recs
  · rw [if_neg (not_lt.mpr hfits)] at h
    obtain ⟨⟨servers₁, d₁⟩, hb, h⟩ := Option.map_eq_some_iff.mp h
    obtain ⟨rfl, rfl⟩ := Prod.mk.inj h
    obtain ⟨hd, hframe, hw⟩ := handleBput_eq hb
    refine ⟨fun d => ?_, hframe, fun d he => ?_⟩
    · rw [Option.some.injEq, ← hd, eq_comm]
      exact ⟨fun he => ⟨hfits, he⟩, fun he => he.2⟩
    · obtain rfl := Option.some.inj he
      exact hw
  · rw [if_pos (not_le.mp hfits)] at h
    obtain ⟨rfl, rfl⟩ := Prod.mk.inj (Option.some.inj h)
    refine ⟨fun d => ⟨fun he => ?_, fun he => absurd he.1 hfits⟩, fun _ _ => rfl, fun d he => ?_⟩
    · cases he
    · cases he

theorem exists_rank_iff {own : ℕ} {L : Prop} {N Q X : ℕ → Prop} :
    (∃ rank, N rank ∧ (if rank = own then L else Q rank) ∧ X rank) ↔
      (∃ rank ≠ own, N rank ∧ Q rank ∧ X rank) ∨ N own ∧ L ∧ X own := by
  constructor
  · rintro ⟨rank, hn, hif, hx⟩
    by_cases hr : rank = own
    · subst hr
      rw [if_pos rfl] at hif
      exact Or.inr ⟨hn, hif, hx⟩
    · rw [if_neg hr] at hif
      exact Or.inl ⟨rank, hr, hn, hif, hx⟩
  · rintro (⟨rank, hr, hn, hq, hx⟩ | ⟨hn, hl, hx⟩)
    · exact ⟨rank, hn, by rwa [if_neg hr], hx⟩
    · exact ⟨own, hn, by rwa [if_pos rfl], hx⟩

omit [LinearOrder S] in
theorem Written.congr {before before' after after' : ℕ → RangeServer K S} {d : BputDone K}
    (h : Written append io before after d) (hb : before d.serverRank = before' d.serverRank)
    (ha : after d.serverRank = after' d.serverRank) : Written append io before' after' d := by
  obtain ⟨brecs, hrecs, hdb⟩ := h
  rw [hb] at hrecs hdb
  exact ⟨brecs, hrecs, ha ▸ hdb⟩

theorem mdhimBPut_spec (hok : md.Ok) (hlen : recs.length ≤ maxBulkOps) {out : BputOutcome K S}
    (h : mdhimBPut κ append io bytes md servers recs = some out) :
    BputSpec append io bytes md servers recs out := by
  unfold mdhimBPut at h
  rw [if_neg (not_lt.mpr hlen)] at h
  obtain ⟨rout, hrout, h⟩ := Option.bind_eq_some_iff.mp h
  obtain ⟨hhandled, hbrms, hframe, hw⟩ := clientBput_spec hok hrout
  rw [own_bulkLists, msgOf] at h
  by_cases hown : recordsTo bytes md recs md.mdhimRank = []
  · -- nothing for ourselves
    rw [if_pos hown] at h
    obtain rfl := Option.some.inj h
    refine ⟨fun d => ?_, fun brm => ?_, hw⟩
    · rw [hhandled, exists_rank_iff]
      exact ⟨Or.inl, fun hd => hd.resolve_right fun hc => hc.1 hown⟩
    · rw [hbrms, exists_rank_iff]
      exact ⟨Or.inl, fun hb => hb.resolve_right fun hc => hc.1 hown⟩
  · rw [if_neg hown] at h
    obtain ⟨⟨servers₁, rm⟩, hlocal, h⟩ := Option.bind_eq_some_iff.mp h
    obtain rfl := Option.some.inj h
    obtain ⟨hrm, hlframe, hlw⟩ := localClientBput_spec hlocal
    refine ⟨fun d => ?_, fun brm => ?_, fun d hd he => ?_⟩
    · rw [List.mem_append, hhandled, exists_rank_iff, Option.mem_toList, hrm]
      exact or_congr_right ⟨fun hd => ⟨hown, hd⟩, fun hd => hd.2⟩
    · rw [List.mem_append, hbrms, exists_rank_iff, Option.mem_toList,
        Option.map_eq_some_iff, or_comm]
      refine or_congr_right ⟨?_, ?_⟩
      · rintro ⟨d, hd, rfl⟩
        obtain ⟨hfits, rfl⟩ := (hrm d).mp hd
        exact ⟨hown, hfits, rfl⟩
      · rintro ⟨-, hfits, rfl⟩
        exact ⟨_, (hrm _).mpr ⟨hfits, rfl⟩, rfl⟩
    · rcases List.mem_append.mp hd with hd | hd
      · obtain ⟨rank, hne, -, -, rfl⟩ := (hhandled d).mp hd
        exact (hw _ hd he).congr rfl (hlframe rank hne).symm
      · have hd' := Option.mem_toList.mp hd
        obtain ⟨-, rfl⟩ := (hrm d).mp hd'
        exact (hlw _ hd' he).congr hframe rfl

/-! ## The call returns -/

omit [LinearOrder S] in
theorem bputRecs_isSome (io : StoreIo) (db : OrdMap K Value) (i : ℕ) (recs : List (K × Value)) :
    (bputRecs false io db i recs).isSome := by
  induction recs generalizing i with
  | nil => rfl
  | cons r recs ih =>
    obtain ⟨key, value⟩ := r
    obtain ⟨brecs, hb⟩ := Option.isSome_iff_exists.mp (ih (i + 1))
    have hv : newValue false (leveldbGet (io.get i) db key).2 value = some value := by
      unfold newValue
      cases (leveldbGet (io.get i) db key).2 <;> rfl
    simp only [bputRecs, hv, hb, Option.bind_eq_bind, Option.bind_some, pure, Option.isSome_some]

theorem handleBput_isSome (h : m.recs.length ≤ maxBulkOps) :
    (handleBput κ false io servers m).isSome := by
  obtain ⟨brecs, hb⟩ := Option.isSome_iff_exists.mp
    (bputRecs_isSome (io m.serverRank) (servers m.serverRank).db 0 m.recs)
  simp only [handleBput, rangeServerBput, if_neg (not_lt.mpr h), hb, Option.bind_eq_bind,
    Option.bind_some, pure, Option.isSome_some]

theorem handleAll_isSome (h : ∀ m ∈ ms, m.recs.length ≤ maxBulkOps) :
    (handleAll κ false io servers ms).isSome := by
  induction ms generalizing servers with
  | nil => rfl
  | cons m ms ih =>
    obtain ⟨⟨servers₁, d⟩, h₁⟩ := Option.isSome_iff_exists.mp
      (@handleBput_isSome _ _ _ _ κ io servers m (h m List.mem_cons_self))
    obtain ⟨⟨servers₂, ds⟩, h₂⟩ := Option.isSome_iff_exists.mp
      (@ih servers₁ fun m' hm' => h m' (List.mem_cons_of_mem _ hm'))
    simp only [handleAll, h₁, h₂, Option.bind_eq_bind, Option.bind_some, pure, Option.isSome_some]

theorem localClientBput_isSome (h : m.recs.length ≤ maxBulkOps) :
    (localClientBput κ false io bytes servers m).isSome := by
  unfold localClientBput
  split_ifs
  · rfl
  · rw [Option.isSome_map]
    exact handleBput_isSome h

/-- A bulk put that does not append has a result, whatever its keys and values are. -/
theorem mdhimBPut_isSome (hok : md.Ok) (servers : ℕ → RangeServer K S) (recs : List (K × Value)) :
    (mdhimBPut κ false io bytes md servers recs).isSome := by
  unfold mdhimBPut
  by_cases hlen : maxBulkOps < recs.length
  · rw [if_pos hlen]
    rfl
  · rw [if_neg hlen]
    have hle : ∀ rank, (recordsTo bytes md recs rank).length ≤ maxBulkOps := fun rank =>
      (List.length_filter_le _ _).trans (not_lt.mp hlen)
    have hsent : ∀ m ∈ (bulkLists md (fun r => bytes r.1) recs).list.reduceOption.filter
        (bputPacks bytes), m.recs.length ≤ maxBulkOps := by
      intro m hm
      obtain ⟨-, hrecs, -⟩ := (mem_reduceOption_bulkLists hok).mp (List.mem_filter.mp hm).1
      rw [hrecs]
      exact hle m.serverRank
    obtain ⟨⟨servers₁, ds⟩, h₁⟩ := Option.isSome_iff_exists.mp
      (@handleAll_isSome _ _ _ _ κ io servers _ hsent)
    simp only [clientBput, sendAllRangesrvWork_eq, h₁, Option.bind_eq_bind, Option.bind_some, pure]
    rw [own_bulkLists, msgOf]
    by_cases hown : recsTo md (fun r => bytes r.1) recs md.mdhimRank = []
    · rw [if_pos hown]
      rfl
    · rw [if_neg hown]
      obtain ⟨⟨servers₂, rm⟩, h₂⟩ := Option.isSome_iff_exists.mp
        (@localClientBput_isSome _ _ _ _ κ io bytes servers₁
          ⟨md.mdhimRank, recordsTo bytes md recs md.mdhimRank⟩ (hle md.mdhimRank))
      dsimp only
      rw [h₂]
      rfl

/-! ## No silent drop -/

/-- If the returned list has no error, every record was handed to a range server that stored it. -/
def NoSilentDrop (append : Bool) (io : ℕ → StoreIo) (servers : ℕ → RangeServer K S)
    (recs : List (K × Value)) (out : BputOutcome K S) : Prop :=
  (∀ brm ∈ out.brms, brm.error = mdhimSuccess) → ∀ r ∈ recs, ∃ d ∈ out.handled,
    r ∈ d.recs ∧ d.error = mdhimSuccess ∧ Written append io servers out.servers d

variable (bytes md) in
/-- Every key has a range server. -/
def AllRouted (recs : List (K × Value)) : Prop :=
  ∀ r ∈ recs, (getRangeServer md (some (bytes r.1))).isSome

variable (io bytes md) in
/-- The server of this rank has records to write, and the write fails. -/
def WriteFails (recs : List (K × Value)) (rank : ℕ) : Prop :=
  recordsTo bytes md recs rank ≠ [] ∧ (io rank).put = false

omit [LinearOrder K] [LinearOrder S] in
/-- A call without records for ourselves has no message that is too large. -/
theorem localFits_of_nil (h : recordsTo bytes md recs md.mdhimRank = []) :
    LocalFits bytes md recs := by
  have hsize : (layoutSize Bputm.layout + recLens [] : ℤ) ≤ mdhimMaxMsgSize := by decide
  unfold LocalFits
  rw [h]
  exact hsize

variable {out : BputOutcome K S}

omit [LinearOrder S] in
/-- A failed write whose reply is on the list is no silent drop. -/
theorem BputSpec.noSilentDrop_of_writeFails (h : BputSpec append io bytes md servers recs out)
    {rank : ℕ} (hfails : WriteFails io bytes md recs rank)
    (hif : if rank = md.mdhimRank then LocalFits bytes md recs else RemotePack bytes md recs) :
    NoSilentDrop append io servers recs out := by
  intro hsuccess
  have herr := hsuccess _ ((h.brms _).mpr ⟨rank, hfails.1, hif, rfl⟩)
  rw [batchError_eq_success, hfails.2] at herr
  cases herr

omit [LinearOrder S] in
/-- A call that drops nothing stores every record, or has the error of a failed write. -/
theorem BputSpec.noSilentDrop_of_kept (h : BputSpec append io bytes md servers recs out)
    (hrouted : AllRouted bytes md recs) (hfits : LocalFits bytes md recs)
    (hpacks : RemotePack bytes md recs) : NoSilentDrop append io servers recs out := by
  intro hsuccess r hr
  obtain ⟨ri, hri⟩ := Option.isSome_iff_exists.mp (hrouted r hr)
  have hmem : r ∈ recordsTo bytes md recs ri.rank :=
    mem_recsTo.mpr ⟨hr, by rw [hri]; rfl⟩
  have hnil := List.ne_nil_of_mem hmem
  have herr : batchError (io ri.rank) = mdhimSuccess := by
    refine hsuccess _ ((h.brms _).mpr ⟨ri.rank, hnil, ?_, rfl⟩)
    split_ifs
    · exact hfits
    · exact hpacks
  have hd := (h.handled _).mpr ⟨ri.rank, hnil, by
    split_ifs with hown
    · exact hfits
    · exact hpacks ri.rank hown hnil, rfl⟩
  exact ⟨_, hd, hmem, herr, h.written _ hd herr⟩

omit [LinearOrder S] in
/-- Where no reply on the list is from a failed write, all are successes. -/
theorem BputSpec.success_of_not_writeFails (h : BputSpec append io bytes md servers recs out)
    (hremote : ¬ (RemotePack bytes md recs ∧
      ∃ rank ≠ md.mdhimRank, WriteFails io bytes md recs rank))
    (hlocal : ¬ (LocalFits bytes md recs ∧ WriteFails io bytes md recs md.mdhimRank)) :
    ∀ brm ∈ out.brms, brm.error = mdhimSuccess := by
  intro brm hbrm
  obtain ⟨rank, hnil, hif, rfl⟩ := (h.brms brm).mp hbrm
  rw [batchError_eq_success]
  by_contra hput
  rw [Bool.not_eq_true] at hput
  by_cases hr : rank = md.mdhimRank
  · rw [if_pos hr] at hif
    exact hlocal ⟨hif, hr ▸ hnil, hr ▸ hput⟩
  · rw [if_neg hr] at hif
    exact hremote ⟨hif, rank, hr, hnil, hput⟩

omit [LinearOrder S] in
/-- When every record is handed to a server, nothing was dropped on the way. -/
theorem BputSpec.kept_of_handled (h : BputSpec append io bytes md servers recs out)
    (hall : ∀ r ∈ recs, ∃ d ∈ out.handled, r ∈ d.recs) :
    AllRouted bytes md recs ∧ LocalFits bytes md recs ∧ RemotePack bytes md recs := by
  have hstored : ∀ r ∈ recs, ∃ rank, r ∈ recordsTo bytes md recs rank ∧
      if rank = md.mdhimRank then LocalFits bytes md recs else Packs bytes md recs rank := by
    intro r hr
    obtain ⟨d, hd, hrd⟩ := hall r hr
    obtain ⟨rank, -, hif, rfl⟩ := (h.handled d).mp hd
    exact ⟨rank, hrd, hif⟩
  -- the server of a record is on one rank
  have hserver : ∀ rank, recordsTo bytes md recs rank ≠ [] →
      if rank = md.mdhimRank then LocalFits bytes md recs else Packs bytes md recs rank := by
    intro rank hnil
    obtain ⟨r, hr⟩ := List.exists_mem_of_ne_nil _ hnil
    obtain ⟨hmem, hrank⟩ := mem_recsTo.mp hr
    obtain ⟨rank', hr', hif⟩ := hstored r hmem
    have heq := (mem_recsTo.mp hr').2
    rw [hrank, Option.some.injEq] at heq
    rwa [heq]
  refine ⟨fun r hr => ?_, ?_, fun rank hne hnil => ?_⟩
  · obtain ⟨rank, hr', -⟩ := hstored r hr
    have hrank := (mem_recsTo.mp hr').2
    rw [← Option.isSome_map, hrank]
    rfl
  · by_cases hnil : recordsTo bytes md recs md.mdhimRank = []
    · exact localFits_of_nil hnil
    · have hif := hserver md.mdhimRank hnil
      rwa [if_pos rfl] at hif
  · have hif := hserver rank hnil
    rwa [if_neg hne] at hif

/-- A bulk put drops no record silently exactly when no record is dropped, or the returned list has
the error of a failed write: at a remote server if all remote messages pack, or at our own server if
the message to it is not too large. -/
theorem noSilentDrop_iff (κ : Keying K S) (append : Bool) (io : ℕ → StoreIo)
    (bytes : K → List UInt8) {o : MdhimOptions} {size client : ℕ} (hclient : client < size)
    {md : Mdhim} (hmd : mdhimInit o size client = some md) {servers : ℕ → RangeServer K S}
    {recs : List (K × Value)} (hlen : recs.length ≤ maxBulkOps) {out : BputOutcome K S}
    (h : mdhimBPut κ append io bytes md servers recs = some out) :
    NoSilentDrop append io servers recs out ↔
      AllRouted bytes md recs ∧ LocalFits bytes md recs ∧ RemotePack bytes md recs ∨
      RemotePack bytes md recs ∧ (∃ rank ≠ md.mdhimRank, WriteFails io bytes md recs rank) ∨
      LocalFits bytes md recs ∧ WriteFails io bytes md recs md.mdhimRank := by
  have hspec := mdhimBPut_spec (mdhimOk (Nat.zero_lt_of_lt hclient) hmd) hlen h
  constructor
  · intro hdrop
    by_contra hc
    rw [not_or, not_or] at hc
    obtain ⟨hkept, hremote, hlocal⟩ := hc
    have hsuccess := hspec.success_of_not_writeFails hremote hlocal
    apply hkept
    apply hspec.kept_of_handled
    intro r hr
    obtain ⟨d, hd, hrd, -⟩ := hdrop hsuccess r hr
    exact ⟨d, hd, hrd⟩
  · rintro (⟨hrouted, hfits, hpacks⟩ | ⟨hpacks, rank, hne, hfails⟩ | ⟨hfits, hfails⟩)
    · exact hspec.noSilentDrop_of_kept hrouted hfits hpacks
    · exact hspec.noSilentDrop_of_writeFails hfails (by rwa [if_neg hne])
    · exact hspec.noSilentDrop_of_writeFails hfails (by rwa [if_pos rfl])

/-- Two ranks, a record for each, and a write that fails on the other rank. -/
theorem noSilentDrop_two_ranks :
    let o : IntOptions := ⟨⟨.int, 1, 10, by decide, by decide, by decide⟩, Or.inl rfl⟩
    let io : ℕ → StoreIo := fun rank => ⟨fun _ => true, rank = 0, fun _ => true⟩
    ∃ md, mdhimInit o.toMdhimOptions 2 0 = some md ∧ ∃ out : BputOutcome (IntKey o) ℕ,
      mdhimBPut (intKeying o) false io keyBytes md (fun _ => .init) [(5, [1]), (12, [2])] =
        some out ∧
      (NoSilentDrop false io (fun _ => .init) [(5, [1]), (12, [2])] out ↔
        AllRouted keyBytes md [((5 : IntKey o), [1]), (12, [2])] ∧
            LocalFits keyBytes md [((5 : IntKey o), [1]), (12, [2])] ∧
            RemotePack keyBytes md [((5 : IntKey o), [1]), (12, [2])] ∨
          RemotePack keyBytes md [((5 : IntKey o), [1]), (12, [2])] ∧
            (∃ rank ≠ md.mdhimRank,
              WriteFails io keyBytes md [((5 : IntKey o), [1]), (12, [2])] rank) ∨
          LocalFits keyBytes md [((5 : IntKey o), [1]), (12, [2])] ∧
            WriteFails io keyBytes md [((5 : IntKey o), [1]), (12, [2])] md.mdhimRank) := by
  intro o io
  have hmd := mdhimInit_eq (o := o.toMdhimOptions) (show 0 < 2 by decide) 0
  have hrun : (mdhimBPut (intKeying o) false io keyBytes ⟨o.toMdhimOptions, 0, 2,
      getNumRangeServers o.toMdhimOptions 2, rangesrvsOf o.toMdhimOptions 2,
      rangesrvMaster (rangesrvsOf o.toMdhimOptions 2)⟩ (fun _ => .init)
      [(5, [1]), (12, [2])]).isSome := by decide +kernel
  obtain ⟨out, hout⟩ := Option.isSome_iff_exists.mp hrun
  exact ⟨_, hmd, out, hout,
    noSilentDrop_iff (intKeying o) false io keyBytes (by decide) hmd (by decide) hout⟩

/-- One rank, slices of one record, and a record whose key is beyond the slices: the list has one
success, for the other record. -/
theorem bput_drops_invalid_key :
    let o : IntOptions := ⟨⟨.int, 1, 1, by decide, by decide, by decide⟩, Or.inl rfl⟩
    ∃ md, mdhimInit o.toMdhimOptions 1 0 = some md ∧ ∃ out : BputOutcome (IntKey o) ℕ,
      mdhimBPut (intKeying o) false (fun _ => .ok) keyBytes md (fun _ => .init)
        [(5, [1]), (4294967295, [2])] = some out ∧ out.brms = [⟨mdhimSuccess, 8, 0⟩] ∧
      ¬ NoSilentDrop false (fun _ => .ok) (fun _ => .init) [(5, [1]), (4294967295, [2])] out := by
  intro o
  have hmd := mdhimInit_eq (o := o.toMdhimOptions) (show 0 < 1 by decide) 0
  have hrun : ((mdhimBPut (intKeying o) false (fun _ => .ok) keyBytes ⟨o.toMdhimOptions, 0, 1,
      getNumRangeServers o.toMdhimOptions 1, rangesrvsOf o.toMdhimOptions 1,
      rangesrvMaster (rangesrvsOf o.toMdhimOptions 1)⟩ (fun _ => .init)
      [(5, [1]), (4294967295, [2])]).any fun out => out.brms = [⟨mdhimSuccess, 8, 0⟩] ∧
        ∀ d ∈ out.handled, (4294967295, [2]) ∉ d.recs) = true := by decide +kernel
  obtain ⟨out, hout, hp⟩ := (Option.any_eq_true _ _).mp hrun
  obtain ⟨hbrms, hnot⟩ := of_decide_eq_true hp
  refine ⟨_, hmd, out, hout, hbrms, fun hdrop => ?_⟩
  obtain ⟨d, hd, hmem, -⟩ := hdrop (by rw [hbrms]; decide) (4294967295, [2]) (by simp)
  exact hnot d hd hmem

end MpiToShmem
