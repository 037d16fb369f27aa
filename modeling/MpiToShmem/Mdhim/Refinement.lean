import MpiToShmem.Kit.History
import MpiToShmem.Mdhim.Requests
import MpiToShmem.Mdhim.Codec

/-!
# The store refines a map

The abstract map goes through the handled requests: a put sets its key, in append mode to the
concatenation, and a delete clears it. A get is answered rightly when the reply is the map's value
of its key, and an error when there is none.

1. `RefInv`: every server's database agrees with the map on the keys that are routed to it.
2. `refines_of_answerable`: along every run in which no get meets an empty value, nor a value too
   long for the reply to a remote client, every get is answered rightly.
-/

namespace MpiToShmem

open Kit

variable {K S : Type}

/-! ## The abstract map -/

section Abstract

variable [DecidableEq K]

/-- The map after a handled request. -/
def mapNext (append : Bool) (m : K → Option Value) (message : Request K) : K → Option Value :=
  match message with
  | .put key value =>
    Function.update m key (some (if append then (m key).getD [] ++ value else value))
  | .del key => Function.update m key none
  | .get _ => m

/-- What the map says about the reply to a get. -/
def AnswersRightly (m : K → Option Value) (h : Handled K) : Prop :=
  ∀ key, h.message = .get key →
    match m key with
    | some v => h.reply = some (.getrm ⟨mdhimSuccess, some key, some v⟩)
    | none => ∃ grm, h.reply = some (.getrm grm) ∧ grm.error ≠ mdhimSuccess

/-- Every get is answered from the map that the requests handled before it make. -/
def RefinesMap (append : Bool) (history : List (Handled K)) : Prop :=
  Explains (fun m h => mapNext append m h.message) AnswersRightly (fun _ => none) history

variable {append : Bool} {m m' : K → Option Value} {message : Request K} {key : K}

/-- A request moves only its own key. -/
theorem mapNext_of_ne (h : key ≠ message.key) : mapNext append m message key = m key := by
  cases message with
  | put k value => exact Function.update_of_ne h _ _
  | del k => exact Function.update_of_ne h _ _
  | get k => rfl

/-- The value of a key after a request depends on its value before, and on that of the key of the
request. -/
theorem mapNext_congr (hm : m message.key = m' message.key) (h : m key = m' key) :
    mapNext append m message key = mapNext append m' message key := by
  by_cases hk : key = message.key
  · subst hk
    cases message with
    | put k value =>
      simp only [Request.key] at hm
      simp only [mapNext, Request.key, Function.update_self, hm]
    | del k => simp only [mapNext, Request.key, Function.update_self]
    | get k => exact h
  · rw [mapNext_of_ne hk, mapNext_of_ne hk, h]

end Abstract

variable [LinearOrder K] [LinearOrder S] {ks : Keyspace K S} {append : Bool} {c c' : Cluster K S}

/-- The map that the handled requests make. -/
def Cluster.map (append : Bool) (c : Cluster K S) : K → Option Value :=
  c.history.foldl (fun m h => mapNext append m h.message) fun _ => none

/-! ## The handlers -/

omit [LinearOrder K] in
/-- The value that a put writes, once an empty old value counts as a missing one. -/
theorem newValue_filter {old : Option Value} {value v : Value}
    (h : newValue append (old.filter fun u => u ≠ []) value = some v) :
    v = if append then old.getD [] ++ value else value := by
  cases old with
  | none =>
    obtain rfl : value = v := Option.some.inj h
    simp
  | some u =>
    by_cases hu : u = []
    · rw [Option.filter_some, if_neg (by simpa using hu)] at h
      obtain rfl : value = v := Option.some.inj h
      simp [hu]
    · rw [Option.filter_some, if_pos (by simpa using hu), newValue] at h
      split_ifs at h with ha hl
      · rw [if_pos ha]
        exact (Option.some.inj h).symm
      · rw [if_neg ha]
        exact (Option.some.inj h).symm

/-- A handler does to its database what the request does to the map. -/
theorem handle_db {s s' : RangeServer K S} {message : Request K} {reply : Reply K}
    (h : handle ks append s message = some (s', reply)) :
    s'.db.get = mapNext append s.db.get message := by
  cases message with
  | put key value =>
    obtain ⟨⟨t, error⟩, ht, he⟩ := Option.map_eq_some_iff.mp h
    obtain ⟨rfl, -⟩ := Prod.mk.inj he
    rcases rangeServerPut_cases ht with ⟨hp, -⟩ | ⟨-, -, v, hv, rfl⟩
    · cases hp
    · funext k
      have hval : v = if append then (s.db.get key).getD [] ++ value else value :=
        newValue_filter (by rw [← leveldbGet_true]; exact hv)
      dsimp only
      rw [OrdMap.get_insert, mapNext, Function.update_apply, hval]
  | del key =>
    obtain ⟨rfl, -⟩ := Prod.mk.inj (Option.some.inj h)
    funext k
    show (s.db.erase key).get k = _
    rw [OrdMap.get_erase, mapNext, Function.update_apply]
  | get key =>
    obtain ⟨rfl, -⟩ := Prod.mk.inj (Option.some.inj h)
    rfl

omit [LinearOrder K] [LinearOrder S] in
/-- A get reply is sent exactly when it is within the limit. -/
theorem packs_getrm_iff {rank : ℕ} {grm : GetReply K} : (Reply.getrm grm).packs ks rank = true ↔
    (layoutSize Getrm.layout + ((grm.key.map ks.bytes).getD []).length +
      (grm.value.getD []).length : ℤ) ≤ mdhimMaxMsgSize := by
  unfold Reply.packs
  constructor
  · intro hp
    have hle := le_of_packGetrmMessage hp
    dsimp only at hle
    exact hle
  · intro hle
    apply packGetrmMessage_isSome
    dsimp only
    exact hle

omit [LinearOrder S] in
theorem rangeServerGet_eq_some {s : RangeServer K S} {key : K} {v : Value}
    (h : s.db.get key = some v) (hv : v ≠ []) :
    rangeServerGet true s (.eq key) = ⟨mdhimSuccess, some key, some v⟩ := by
  have hlen : v.length ≠ 0 := fun h0 => hv (List.length_eq_zero_iff.mp h0)
  simp [rangeServerGet, leveldbGet, h, hlen]

omit [LinearOrder S] in
theorem rangeServerGet_eq_none {s : RangeServer K S} {key : K} (h : s.db.get key = none) :
    rangeServerGet true s (.eq key) = ⟨mdhimDbError, some key, none⟩ := by
  simp [rangeServerGet, leveldbGet, h]

/-! ## The invariant -/

variable (ks append) in
structure RefInv (c : Cluster K S) : Prop where
  routed : ∀ rank, ∀ item ∈ c.workQueue rank, ks.server item.message.key = some rank
  agrees : ∀ rank key, ks.server key = some rank → (c.server rank).db.get key = c.map append key
  refines : RefinesMap append c.history

omit [LinearOrder S] in
theorem refInv_init : RefInv ks append (Cluster.init : Cluster K S) where
  routed rank item h := by cases h
  agrees rank key _ := OrdMap.get_empty key
  refines := trivial

omit [LinearOrder S] in
theorem RefInv.request (h : RefInv ks append c) (client : ℕ) (message : Request K) :
    RefInv ks append (c.request ks client message) where
  routed rank item hitem := by
    rcases Cluster.mem_workQueue_request hitem with hitem | hr
    · exact h.routed rank item hitem
    · exact hr
  agrees rank key hr := by
    rw [Cluster.server_request, Cluster.map, Cluster.history_request]
    exact h.agrees rank key hr
  refines := by
    rw [Cluster.history_request]
    exact h.refines

variable (ks) in
/-- The next request of a worker is no get of an empty value, and no remote get of a value that its
reply cannot carry. -/
def Answerable (c : Cluster K S) : ClusterLabel K → Prop
  | .request _ _ => True
  | .work rank => ∀ item ∈ (c.workQueue rank).head?, ∀ key, item.message = .get key →
      ∀ v ∈ (c.server rank).db.get key, v ≠ [] ∧ (item.source ≠ rank →
        (layoutSize Getrm.layout + (ks.bytes key).length + v.length : ℤ) ≤ mdhimMaxMsgSize)

instance (message : Request K) (P : K → Prop) [DecidablePred P] :
    Decidable (∀ key, message = .get key → P key) :=
  match message with
  | .put _ _ => .isTrue fun _ h => by cases h
  | .del _ => .isTrue fun _ h => by cases h
  | .get key => decidable_of_iff (P key) ⟨fun h _ hk => Request.get.inj hk ▸ h, fun h => h key rfl⟩

instance (c : Cluster K S) (a : ClusterLabel K) : Decidable (Answerable ks c a) :=
  match a with
  | .request _ _ => .isTrue trivial
  | .work rank => inferInstanceAs (Decidable (∀ item ∈ (c.workQueue rank).head?, ∀ key,
      item.message = .get key → ∀ v ∈ (c.server rank).db.get key, v ≠ [] ∧ (item.source ≠ rank →
        (layoutSize Getrm.layout + (ks.bytes key).length + v.length : ℤ) ≤ mdhimMaxMsgSize)))

theorem RefInv.work {rank : ℕ} (h : RefInv ks append c) (hg : Answerable ks c (.work rank))
    (hw : c.work ks append rank = some c') : RefInv ks append c' := by
  obtain ⟨item, items, s, reply, hq, hh, rfl⟩ := Cluster.work_eq_some.mp hw
  have hitem : ks.server item.message.key = some rank :=
    h.routed rank item (by rw [hq]; exact List.mem_cons_self)
  have hmap : ∀ handled : Handled K, handled.message = item.message →
      (c.history ++ [handled]).foldl (fun m h => mapNext append m h.message) (fun _ => none) =
        mapNext append (c.map append) item.message := by
    intro handled hmsg
    rw [List.foldl_append, List.foldl_cons, List.foldl_nil, hmsg]
    rfl
  constructor
  · intro r item' hitem'
    by_cases hr : r = rank
    · subst hr
      dsimp only at hitem'
      rw [Function.update_self] at hitem'
      exact h.routed r item' (by rw [hq]; exact List.mem_cons_of_mem _ hitem')
    · dsimp only at hitem'
      rw [Function.update_of_ne hr] at hitem'
      exact h.routed r item' hitem'
  · intro r key hkey
    rw [Cluster.map, hmap _ rfl]
    dsimp only
    by_cases hr : r = rank
    · subst hr
      rw [Function.update_self, handle_db hh]
      exact mapNext_congr (h.agrees r _ hitem) (h.agrees r key hkey)
    · have hne : key ≠ item.message.key := by
        rintro rfl
        exact hr (Option.some.inj (hkey.symm.trans hitem))
      rw [Function.update_of_ne hr, mapNext_of_ne hne, h.agrees r key hkey]
  · refine explains_concat.mpr ⟨h.refines, fun key hkey => ?_⟩
    dsimp only at hkey ⊢
    rw [hkey] at hh hitem
    obtain ⟨-, rfl⟩ := Prod.mk.inj (Option.some.inj hh)
    have hmapkey : c.history.foldl (fun m h => mapNext append m h.message) (fun _ => none) key =
        (c.server rank).db.get key := (h.agrees rank key hitem).symm
    rw [hmapkey]
    cases hget : (c.server rank).db.get key with
    | none =>
      rw [rangeServerGet_eq_none hget]
      refine ⟨_, if_pos (Or.inr (packs_getrm_iff.mpr ?_)), by simp [mdhimDbError, mdhimSuccess]⟩
      have hlen := ks.length_bytes key
      unfold maxKeyLen at hlen
      have hsize : layoutSize Getrm.layout = 48 := rfl
      rw [hsize, mdhimMaxMsgSize, Option.getD_none, List.length_nil, Option.map_some,
        Option.getD_some]
      omega
    | some v =>
      obtain ⟨hv, hfits⟩ := hg item (by rw [hq]; rfl) key hkey v hget
      rw [rangeServerGet_eq_some hget hv]
      refine if_pos ?_
      by_cases hsrc : item.source = rank
      · exact Or.inl hsrc
      · exact Or.inr (packs_getrm_iff.mpr (hfits hsrc))

theorem refInv_step (c : Cluster K S) (a : ClusterLabel K) (c' : Cluster K S)
    (h : RefInv ks append c) (hg : Answerable ks c a) (hs : clusterStep ks append c a = some c') :
    RefInv ks append c' := by
  cases a with
  | request client message =>
    obtain rfl := Option.some.inj hs
    exact h.request client message
  | work rank => exact h.work hg hs

/-- Along every run whose gets are answerable, the servers answer as one map does. -/
theorem refines_of_answerable (ks : Keyspace K S) (append : Bool) {ls : List (ClusterLabel K)}
    {c : Cluster K S} (hg : Meets (clusterStep ks append) (Answerable ks) .init ls)
    (hrun : exec (clusterStep ks append) .init ls = some c) : RefinesMap append c.history :=
  (exec_inv_meets refInv_step refInv_init hg hrun).refines

/-- Two clients append to one key, of which one reads it, deletes it and reads it again. -/
theorem refines_of_answerable_two_clients :
    let o : IntOptions := ⟨⟨.int, 1, 10, by decide, by decide, by decide⟩, Or.inl rfl⟩
    ∃ md, mdhimInit o.toMdhimOptions 2 0 = some md ∧
      ∃ c, exec (clusterStep (intKeyspace (o := o) md) true) .init
        [.request 0 (.put 5 [1]), .request 1 (.put 5 [7]), .request 1 (.put 12 []), .work 0,
          .work 1, .work 0, .request 1 (.get 5), .request 0 (.del 5), .work 0, .work 0,
          .request 1 (.get 5), .work 0] = some c ∧ RefinesMap true c.history := by
  intro o
  let md : Mdhim := ⟨o.toMdhimOptions, 0, 2, getNumRangeServers o.toMdhimOptions 2,
    rangesrvsOf o.toMdhimOptions 2, rangesrvMaster (rangesrvsOf o.toMdhimOptions 2)⟩
  refine ⟨md, mdhimInit_eq (by decide) 0, ?_⟩
  have hrun : (exec (clusterStep (intKeyspace (o := o) md) true) .init
      [.request 0 (.put 5 [1]), .request 1 (.put 5 [7]), .request 1 (.put 12 []),
        .work 0, .work 1, .work 0, .request 1 (.get 5), .request 0 (.del 5), .work 0, .work 0,
        .request 1 (.get 5), .work 0]).isSome := by decide
  obtain ⟨c, hc⟩ := Option.isSome_iff_exists.mp hrun
  exact ⟨c, hc, refines_of_answerable _ true (by decide) hc⟩

/-- A stored value of length 0 is reported as missing. -/
theorem not_refines_empty_value :
    ¬ ∀ (K S : Type) [LinearOrder K] [LinearOrder S] (ks : Keyspace K S) (append : Bool)
      (ls : List (ClusterLabel K)) (c : Cluster K S),
      exec (clusterStep ks append) .init ls = some c → RefinesMap append c.history := by
  intro h
  let o : IntOptions := ⟨⟨.int, 1, 10, by decide, by decide, by decide⟩, Or.inl rfl⟩
  let md : Mdhim := ⟨o.toMdhimOptions, 0, 2, 2, [⟨0, 1⟩, ⟨1, 2⟩], 1⟩
  have hrun : (exec (clusterStep (intKeyspace (o := o) md) false) .init
      [.request 0 (.put 5 []), .work 0, .request 0 (.get 5), .work 0]).any (fun c =>
        c.history = [⟨0, 0, .put 5 [], some (.rm mdhimSuccess)⟩,
          ⟨0, 0, .get 5, some (.getrm ⟨mdhimDbError, some 5, none⟩)⟩]) = true := by decide
  obtain ⟨c, hc, hfinal⟩ := (Option.any_eq_true _ _).mp hrun
  have hright := h _ _ _ false _ c hc
  rw [of_decide_eq_true hfinal] at hright
  have hget := hright.2.1 5 rfl
  simp [mapNext] at hget

end MpiToShmem
