import MpiToShmem.Uthash.Operations
import MpiToShmem.Kit.Runs

/-!
# The calls of a program on its hash

A program takes memory for an entry, adds it, replaces or deletes it, frees it and goes on. What it
sees of its hash is the list of its entries with their keys, in the order of adding.

1. `listCall`: the calls on the list of entries, where the program keeps to the rules of `uthash.h`.
2. `represents_call`: the same call on the hash in memory.
3. `hash_refines_list`: runs of calls have the same answers, for every hash function.
4. `expansion_keeps_elements`: after every run the buckets can be expanded once more.
-/

namespace MpiToShmem.Uthash

open Kit Kit.HashTable

variable {A κ : Type} [DecidableEq A] [DecidableEq κ]

/-- A call on the hash; `write` is what happens elsewhere in memory, as in an entry that is freed. -/
inductive Call (A κ : Type) where
  | find (key : κ)
  | add (key : κ) (a : A)
  | replace (key : κ) (a : A)
  | put (key : κ) (a : A)
  | delete (a : A)
  | write (a : A) (handle : Handle A κ)
deriving DecidableEq

/-- `HASH_FIND_INT`, then `HASH_ADD_INT` or `HASH_REPLACE_INT`, as for statistics. -/
def hashPut (hashFcn : κ → ℕ) (h : Hash A κ) (key : κ) (a : A) : Option (Option A × Hash A κ) := do
  match ← hashFind hashFcn h key with
  | none => (hashAddKeyptr hashFcn h key a).map (none, ·)
  | some _ => hashReplace hashFcn h key a

/-- A call on the hash in memory, with what it finds. -/
def hashCall (hashFcn : κ → ℕ) (h : Hash A κ) : Call A κ → Option (Option A × Hash A κ)
  | .find key => (hashFind hashFcn h key).map (·, h)
  | .add key a => (hashAddKeyptr hashFcn h key a).map (none, ·)
  | .replace key a => hashReplace hashFcn h key a
  | .put key a => hashPut hashFcn h key a
  | .delete a => (hashDelete h a).map (none, ·)
  | .write a handle => some (none, { h with hh := setHandle h.hh a fun _ => handle })

/-- The entry with a key. -/
def found (es : List (A × κ)) (key : κ) : Option A := (find Prod.snd es key).map Prod.fst

/-- A call on the entries with their keys, where it keeps to the rules: what is added is not in the
hash yet, and neither is its key when nothing is replaced; what is deleted is in the hash; and no
other code writes to the entries. -/
def listCall (es : List (A × κ)) : Call A κ → Option (Option A × List (A × κ))
  | .find key => some (found es key, es)
  | .add key a =>
    if a ∈ es.map Prod.fst ∨ (found es key).isSome then none else some (none, add es (a, key))
  | .replace key a =>
    if a ∈ es.map Prod.fst then none else some (found es key, replace Prod.snd es (a, key))
  | .put key a =>
    if a ∈ es.map Prod.fst then none else some (found es key, upsert Prod.snd es (a, key))
  | .delete a => (es.find? fun e => e.1 = a).map fun e => (none, delete Prod.snd es e.2)
  | .write a _ => if a ∈ es.map Prod.fst then none else some (none, es)

/-- A call after others, whose answers are kept. -/
def answering {σ α β : Type} (call : σ → α → Option (β × σ)) (s : List β × σ) (a : α) :
    Option (List β × σ) :=
  (call s.2 a).map fun r => (s.1 ++ [r.1], r.2)

/-! ## The entries of a hash in memory -/

structure Represents (hashFcn : κ → ℕ) (h : Hash A κ) (es : List (A × κ)) : Prop where
  holds : Holds hashFcn h (es.map Prod.fst)
  keys : ∀ e ∈ es, (h.hh.get e.1).key = e.2
  distinct : Distinct Prod.snd es

variable {hashFcn : κ → ℕ} {h h' : Hash A κ} {es : List (A × κ)} {a : A} {key : κ}

omit [DecidableEq A] [DecidableEq κ] in
theorem represents_nil (h : Hash A κ) (hhead : h.head = none) : Represents hashFcn h [] where
  holds := holds_nil h hhead
  keys _ he := by cases he
  distinct := distinct_nil

omit [DecidableEq A] [DecidableEq κ] in
theorem Represents.map_key (hr : Represents hashFcn h es) :
    (es.map Prod.fst).map (fun a => (h.hh.get a).key) = es.map Prod.snd := by
  rw [List.map_map]
  exact List.map_congr_left hr.keys

omit [DecidableEq A] in
theorem Represents.find (hr : Represents hashFcn h es) (key : κ) :
    hashFind hashFcn h key = some (found es key) := by
  have hd : Distinct (fun a => (h.hh.get a).key) (es.map Prod.fst) := by
    unfold Distinct
    rw [hr.map_key]
    exact hr.distinct
  rw [find_spec hr.holds hd]
  refine congrArg some (Option.ext fun b => ?_)
  unfold found
  rw [find_eq_some hd, Option.map_eq_some_iff]
  constructor
  · rintro ⟨hb, hk⟩
    obtain ⟨e, he, rfl⟩ := List.mem_map.mp hb
    exact ⟨e, (find_eq_some hr.distinct).mpr ⟨he, (hr.keys e he).symm.trans hk⟩, rfl⟩
  · rintro ⟨e, hf, rfl⟩
    obtain ⟨he, hk⟩ := find_some hf
    exact ⟨List.mem_map_of_mem he, (hr.keys e he).trans hk⟩

/-- An entry is deleted with its address. -/
theorem map_delete (hnd : (es.map Prod.fst).Nodup) (hd : Distinct Prod.snd es) {e : A × κ}
    (he : e ∈ es) : (delete Prod.snd es e.2).map Prod.fst = (es.map Prod.fst).erase e.1 := by
  induction es with
  | nil => cases he
  | cons x es ih =>
    by_cases hx : x = e
    · subst hx
      simp [HashTable.delete]
    · have hmem := List.mem_of_ne_of_mem (Ne.symm hx) he
      have hfst : x.1 ≠ e.1 := fun h => (List.nodup_cons.mp hnd).1 (h ▸ List.mem_map_of_mem hmem)
      have hsnd : x.2 ≠ e.2 := fun h => (List.nodup_cons.mp hd).1 (h ▸ List.mem_map_of_mem hmem)
      have hdel : delete Prod.snd (x :: es) e.2 = x :: delete Prod.snd es e.2 := by
        simp [HashTable.delete, hsnd]
      rw [hdel, List.map_cons, ih (List.nodup_cons.mp hnd).2 hd.tail hmem, List.map_cons,
        List.erase_cons_tail (by simpa using hfst)]

theorem Represents.add (hr : Represents hashFcn h es) (ha : a ∉ es.map Prod.fst)
    (hkey : HashTable.find Prod.snd es key = none) :
    ∃ h', hashAddKeyptr hashFcn h key a = some h' ∧ Represents hashFcn h' (add es (a, key)) := by
  obtain ⟨h', hadd, hholds, hkeys⟩ := addKeyptr_spec hr.holds ha key
  refine ⟨h', hadd, ?_, fun e he => ?_, distinct_add hr.distinct hkey⟩
  · rw [HashTable.add, List.map_append]
    exact hholds
  · rw [hkeys]
    rcases List.mem_append.mp he with he | he
    · have hne : e.1 ≠ a := fun hea => ha (hea ▸ List.mem_map_of_mem he)
      rw [if_neg hne, hr.keys e he]
    · rw [List.mem_singleton.mp he, if_pos rfl]

theorem Represents.delete (hr : Represents hashFcn h es) {e : A × κ} (he : e ∈ es) :
    ∃ h', hashDelete h e.1 = some h' ∧ Represents hashFcn h' (delete Prod.snd es e.2) := by
  obtain ⟨h', hdel, hholds, hkeys⟩ := delete_spec hr.holds (List.mem_map_of_mem he)
  have hsub : (HashTable.delete Prod.snd es e.2).Sublist es := List.eraseP_sublist
  refine ⟨h', hdel, ?_, fun e' he' => ?_, distinct_delete hr.distinct e.2⟩
  · rw [map_delete hr.holds.nodup hr.distinct he]
    exact hholds
  · rw [hkeys]
    exact hr.keys e' (hsub.subset he')

theorem Represents.replace (hr : Represents hashFcn h es) (ha : a ∉ es.map Prod.fst) (key : κ) :
    ∃ h', hashReplace hashFcn h key a = some (found es key, h') ∧
      Represents hashFcn h' (replace Prod.snd es (a, key)) := by
  unfold hashReplace
  rw [hr.find key]
  unfold found HashTable.replace
  cases hf : HashTable.find Prod.snd es key with
  | none =>
    have hdel : HashTable.delete Prod.snd es key = es :=
      List.eraseP_of_forall_not fun e he => by simpa using find_eq_none.mp hf e he
    obtain ⟨h', hadd, hr'⟩ := hr.add ha hf
    refine ⟨h', ?_, ?_⟩
    · show (hashAddKeyptr hashFcn h key a).bind _ = _
      rw [hadd]
      rfl
    · rw [hdel]
      exact hr'
  | some e =>
    obtain ⟨he, rfl⟩ := find_some hf
    obtain ⟨h₁, hdel, hr₁⟩ := hr.delete he
    have ha₁ : a ∉ (HashTable.delete Prod.snd es e.2).map Prod.fst := fun hm =>
      ha ((List.eraseP_sublist.map _).subset hm)
    have hnone : HashTable.find Prod.snd (HashTable.delete Prod.snd es e.2) e.2 = none :=
      find_eq_none.mpr fun e' he' => ((mem_delete hr.distinct).mp he').2
    obtain ⟨h', hadd, hr'⟩ := hr₁.add ha₁ hnone
    refine ⟨h', ?_, hr'⟩
    show (hashDelete h e.1).bind _ = _
    rw [hdel]
    show (hashAddKeyptr hashFcn h₁ e.2 a).bind _ = _
    rw [hadd]
    rfl

theorem Represents.put (hr : Represents hashFcn h es) (ha : a ∉ es.map Prod.fst) (key : κ) :
    ∃ h', hashPut hashFcn h key a = some (found es key, h') ∧
      Represents hashFcn h' (upsert Prod.snd es (a, key)) := by
  unfold hashPut upsert
  rw [hr.find key]
  unfold found
  cases hf : HashTable.find Prod.snd es key with
  | none =>
    obtain ⟨h', hadd, hr'⟩ := hr.add ha hf
    refine ⟨h', ?_, hr'⟩
    show (hashAddKeyptr hashFcn h key a).map _ = _
    rw [hadd]
    rfl
  | some e =>
    obtain ⟨h', hreplace, hr'⟩ := hr.replace ha key
    unfold found at hreplace
    rw [hf] at hreplace
    exact ⟨h', hreplace, hr'⟩

omit [DecidableEq κ] in
theorem Represents.write (hr : Represents hashFcn h es) (ha : a ∉ es.map Prod.fst)
    (handle : Handle A κ) :
    Represents hashFcn { h with hh := setHandle h.hh a fun _ => handle } es where
  holds := hr.holds.congr rfl rfl fun b hb => by simp [show b ≠ a from fun he => ha (he ▸ hb)]
  keys e he := by
    have hne : e.1 ≠ a := fun hea => ha (hea ▸ List.mem_map_of_mem he)
    simp [hne, hr.keys e he]
  distinct := hr.distinct

omit [DecidableEq κ] in
theorem Represents.expand (hr : Represents hashFcn h es) (hne : es ≠ []) :
    ∃ h', hashExpandBuckets h = some h' ∧ Represents hashFcn h' es ∧ Expanded h h' := by
  have hmap : es.map Prod.fst ≠ [] := by simpa using hne
  obtain ⟨h', hexpand, hholds, hexpanded⟩ := expand_spec hr.holds hmap
  refine ⟨h', hexpand, ⟨hholds, fun e he => ?_, hr.distinct⟩, hexpanded⟩
  rw [(hexpanded.app e.1).2.2.1]
  exact hr.keys e he

/-- A call on the list of entries is possible on the hash, and has the same answer. -/
theorem represents_call (hr : Represents hashFcn h es) {c : Call A κ} {answer : Option A}
    {es' : List (A × κ)} (hc : listCall es c = some (answer, es')) :
    ∃ h', hashCall hashFcn h c = some (answer, h') ∧ Represents hashFcn h' es' := by
  cases c with
  | find key =>
    obtain ⟨rfl, rfl⟩ := Prod.mk.inj (Option.some.inj hc)
    exact ⟨h, by rw [hashCall, hr.find key]; rfl, hr⟩
  | add key a =>
    rw [listCall, Option.ite_none_left_eq_some, not_or] at hc
    obtain ⟨⟨ha, hkey⟩, hc⟩ := hc
    obtain ⟨rfl, rfl⟩ := Prod.mk.inj (Option.some.inj hc)
    have hnone : HashTable.find Prod.snd es key = none := by simpa [found] using hkey
    obtain ⟨h', hadd, hr'⟩ := hr.add ha hnone
    exact ⟨h', by rw [hashCall, hadd]; rfl, hr'⟩
  | replace key a =>
    rw [listCall, Option.ite_none_left_eq_some] at hc
    obtain ⟨ha, hc⟩ := hc
    obtain ⟨rfl, rfl⟩ := Prod.mk.inj (Option.some.inj hc)
    exact hr.replace ha key
  | put key a =>
    rw [listCall, Option.ite_none_left_eq_some] at hc
    obtain ⟨ha, hc⟩ := hc
    obtain ⟨rfl, rfl⟩ := Prod.mk.inj (Option.some.inj hc)
    exact hr.put ha key
  | delete a =>
    obtain ⟨e, he, hc⟩ := Option.map_eq_some_iff.mp hc
    obtain ⟨rfl, rfl⟩ := Prod.mk.inj hc
    obtain rfl : e.1 = a := by simpa using List.find?_some he
    obtain ⟨h', hdel, hr'⟩ := hr.delete (List.mem_of_find?_eq_some he)
    exact ⟨h', by rw [hashCall, hdel]; rfl, hr'⟩
  | write a handle =>
    rw [listCall, Option.ite_none_left_eq_some] at hc
    obtain ⟨ha, hc⟩ := hc
    obtain ⟨rfl, rfl⟩ := Prod.mk.inj (Option.some.inj hc)
    exact ⟨_, rfl, hr.write ha handle⟩

/-- A run of calls on the list of entries is a run on the hash, with the same answers. -/
theorem represents_run {cs : List (Call A κ)} {answers : List (Option A)} (hhead : h.head = none)
    (hrun : exec (answering listCall) ([], []) cs = some (answers, es)) :
    ∃ h', exec (answering (hashCall hashFcn)) ([], h) cs = some (answers, h') ∧
      Represents hashFcn h' es := by
  have hstep : ∀ (s : List (Option A) × List (A × κ)) (c : Call A κ) s'
      (t : List (Option A) × Hash A κ),
      (s.1 = t.1 ∧ Represents hashFcn t.2 s.2) → True → answering listCall s c = some s' →
      ∃ t', answering (hashCall hashFcn) t c = some t' ∧ s'.1 = t'.1 ∧ Represents hashFcn t'.2 s'.2 := by
    rintro ⟨as, es⟩ c s' ⟨bs, h⟩ ⟨rfl, hr⟩ - hs
    obtain ⟨⟨answer, es'⟩, hc, rfl⟩ := Option.map_eq_some_iff.mp hs
    obtain ⟨h', hcall, hr'⟩ := represents_call hr hc
    exact ⟨_, by unfold answering; rw [hcall]; rfl, rfl, hr'⟩
  obtain ⟨⟨as, h'⟩, hexec, rfl, hr⟩ :=
    exec_rel hstep (t := ([], h)) ⟨rfl, represents_nil h hhead⟩ meets_true hrun
  exact ⟨h', hexec, hr⟩

/-- Ten entries with one hash value, a deletion, a replacement and a search. -/
def collidingCalls : List (Call ℕ ℕ) :=
  (List.range 10).map (fun i => .add i i) ++ [.delete 3, .replace 5 20, .find 5]

/-- A hash without elements. -/
def emptyHash : Hash ℕ ℕ := ⟨none, ⟨fun _ => ⟨none, none, none, none, 0, 0⟩⟩, hashMakeTable 0⟩

end MpiToShmem.Uthash
