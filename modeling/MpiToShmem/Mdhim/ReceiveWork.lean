import MpiToShmem.Kit.ZeroTail
import MpiToShmem.Mdhim.Codec
import MpiToShmem.Mdhim.Partitioner
import MpiToShmem.Mdhim.WorkNet

/-!
# Receiving a request

`receive_rangesrv_work` from where the bytes of a message have arrived. The message type and size are
read from the header, and the unpack function of the type is given the size of the header, not the
number of bytes received. So it may read what lies behind them.

1. `Unpacks`: what an unpack function reads is not changed by bytes behind it, and where it succeeds
   on bytes that are only partly known, it does so with zeros in place of the others.
2. `decoded_iff`: for which buffers a message is decoded from the bytes received, or rejected.
-/

namespace MpiToShmem

open Kit

/-- The type of a message. -/
def Work.mtype : Work → ℤ
  | put pm => pm.mtype
  | get gm => gm.mtype
  | del dm => dm.mtype
  | bulk (.bput bpm) => bpm.mtype
  | bulk (.bget bgm) => bgm.mtype
  | bulk (.bdel bdm) => bdm.mtype
  | base cm => cm.mtype

/-- The header of a buffer; `none` where it is too short for one. -/
def recvHeader (recvbuf : List UInt8) : Option Basem :=
  match unpackHeader Basem.layout recvbuf recvbuf.length with
  | some ([mtype, serverRank, size], _) => some ⟨mtype, serverRank, size⟩
  | _ => none

/-- The unpack function of a message type. -/
def unpackWork (mtype : ℤ) (message : List UInt8) (mesgSize : ℤ) : Option Work :=
  match mtype with
  | 1 => (unpackPutMessage message mesgSize).map .put
  | 2 => (unpackBputMessage message mesgSize).map fun bpm => .bulk (.bput bpm)
  | 3 => (unpackGetMessage message mesgSize).map .get
  | 4 => (unpackBgetMessage message mesgSize).map fun bgm => .bulk (.bget bgm)
  | 5 => (unpackDelMessage message mesgSize).map .del
  | 6 => (unpackBdelMessage message mesgSize).map fun bdm => .bulk (.bdel bdm)
  | _ => none

/-- The `mesgSize` bytes from the start of the buffer on, with what lies behind it in memory. -/
def bytesFrom (recvbuf : List UInt8) (beyond : ℕ → UInt8) (mesgSize : ℤ) : List UInt8 :=
  recvbuf ++ (List.range (mesgSize.toNat - recvbuf.length)).map beyond

/-- `receive_rangesrv_work`: the return code and `*message`. `junk` is what the allocated header
holds, which stays there when the buffer is too short for one. The message of an error is left
out. -/
def receiveRangesrvWork (junk : Basem) (beyond : ℕ → UInt8) (recvbuf : List UInt8) :
    ℤ × Option Work :=
  let bm := (recvHeader recvbuf).getD junk
  if bm.size = 0 ∨ bm.mtype < 1 ∨ bm.mtype > 11 then (mdhimError, none)
  else if bm.mtype ≤ 6 then
    match unpackWork bm.mtype (bytesFrom recvbuf beyond bm.size) bm.size with
    | some m => (mdhimSuccess, some m)
    | none => (mdhimError, none)
  -- the other cases of the switch leave the return code of the first unpack
  else if recvHeader recvbuf = none then (mdhimError, none)
  else if bm.mtype = 11 then (11, none)
  else if bm.mtype = 7 then (7, none)
  else (mdhimSuccess, none)

/-- Whatever is in memory, a call that returns neither an error nor `MDHIM_CLOSE` has unpacked a
request of the type in the header, and the same from the received bytes alone. -/
def Decoded (recvbuf : List UInt8) : Prop :=
  ∀ (junk : Basem) (beyond : ℕ → UInt8),
    IsInt junk.mtype → IsInt junk.serverRank → IsInt junk.size →
    (receiveRangesrvWork junk beyond recvbuf).1 < 0 ∨
      (receiveRangesrvWork junk beyond recvbuf).1 = 7 ∨
      ∃ bm m, recvHeader recvbuf = some bm ∧
        (receiveRangesrvWork junk beyond recvbuf).2 = some m ∧ m.mtype = bm.mtype ∧
        1 ≤ m.mtype ∧ m.mtype ≤ 6 ∧ unpackWork bm.mtype recvbuf bm.size = some m

/-- There is a header, and it is refused, or says `MDHIM_CLOSE`, or is that of a request which the
received bytes hold, or which they do not begin: it is not there with zeros behind them either. -/
def HoldsRequest (recvbuf : List UInt8) : Prop :=
  ∃ bm, recvHeader recvbuf = some bm ∧
    (bm.size = 0 ∨ bm.mtype < 1 ∨ 11 < bm.mtype ∨ bm.mtype = 7 ∨
      (bm.mtype ≤ 6 ∧ ((unpackWork bm.mtype recvbuf bm.size).isSome ∨
        unpackWork bm.mtype (bytesFrom recvbuf (fun _ => 0) bm.size) bm.size = none)))

/-! ## Reading bytes that are partly known -/

variable {rest rest' zs bs : List UInt8} {n n' : ℤ}

theorem mpiUnpack_eq_some : mpiUnpack n rest = some (bs, rest') ↔
    (0 ≤ n ∧ n ≤ rest.length) ∧ rest.take n.toNat = bs ∧ rest.drop n.toNat = rest' := by
  unfold mpiUnpack
  split_ifs with h
  · simp [h]
  · simp [h]

/-- More bytes behind those that are read. -/
theorem mpiUnpack_stable (h : mpiUnpack n rest = some (bs, rest')) (w : List UInt8) :
    mpiUnpack n (rest ++ w) = some (bs, rest' ++ w) := by
  obtain ⟨⟨h0, hle⟩, rfl, rfl⟩ := mpiUnpack_eq_some.mp h
  refine mpiUnpack_eq_some.mpr ⟨⟨h0, ?_⟩, ?_, ?_⟩
  · rw [List.length_append]
    omega
  · rw [List.take_append_of_le_length (by omega)]
  · rw [List.drop_append_of_le_length (by omega)]

/-- A length that is the same, or not greater beyond the known bytes. -/
theorem mpiUnpack_covered (hc : Covered rest zs) (hn : 0 ≤ n → 0 ≤ n' ∧ n' ≤ n)
    (hs : n' = n ∨ Beyond rest zs) (h : mpiUnpack n rest = some (bs, rest')) :
    ∃ bs' zs', mpiUnpack n' zs = some (bs', zs') ∧ Covered rest' zs' ∧
      (Beyond rest zs → Beyond rest' zs') := by
  obtain ⟨⟨h0, hle⟩, rfl, rfl⟩ := mpiUnpack_eq_some.mp h
  obtain ⟨h0', hle'⟩ := hn h0
  have hlen := hc.length_le
  have hbeyond : Beyond rest zs → Beyond (rest.drop n.toNat) (zs.drop n'.toNat) :=
    fun hb => hb.drop (by omega)
  refine ⟨_, _, mpiUnpack_eq_some.mpr ⟨⟨h0', by omega⟩, rfl, rfl⟩, ?_, hbeyond⟩
  rcases hs with rfl | hb
  · exact hc.drop _
  · exact (hbeyond hb).covered

theorem unpackBlob_stable (h : unpackBlob rest = some (bs, rest')) (w : List UInt8) :
    unpackBlob (rest ++ w) = some (bs, rest' ++ w) := by
  obtain ⟨⟨len, rest₁⟩, hlen, h⟩ := Option.bind_eq_some_iff.mp h
  rw [unpackBlob, mpiUnpack_stable hlen, Option.bind_eq_bind, Option.bind_some]
  exact mpiUnpack_stable h w

theorem unpackBlob_covered (hc : Covered rest zs) (h : unpackBlob rest = some (bs, rest')) :
    ∃ bs' zs', unpackBlob zs = some (bs', zs') ∧ Covered rest' zs' := by
  obtain ⟨⟨len, rest₁⟩, hlen, h⟩ := Option.bind_eq_some_iff.mp h
  dsimp only at h
  obtain ⟨⟨-, hle⟩, rfl, rfl⟩ := mpiUnpack_eq_some.mp hlen
  have hle' := hc.length_le
  have hzs : mpiUnpack 4 zs = some (zs.take 4, zs.drop 4) :=
    mpiUnpack_eq_some.mpr ⟨⟨by omega, by omega⟩, rfl, rfl⟩
  have h4 : (rest.take 4).length = 4 := by
    rw [List.length_take]
    omega
  have hsame : decodeInt (zs.take 4) = decodeInt (rest.take 4) ∨
      Beyond (rest.drop 4) (zs.drop 4) := (hc.eq_or_beyond 4).imp_left (congrArg decodeInt)
  obtain ⟨bs', zs', hblob, hc', -⟩ := mpiUnpack_covered (hc.drop 4)
    (covered_decodeInt (hc.take 4) h4) hsame h
  refine ⟨bs', zs', ?_, hc'⟩
  rw [unpackBlob, hzs, Option.bind_eq_bind, Option.bind_some]
  exact hblob

/-- The loop over keys, when there are not more of them. -/
theorem unpackKeys_loop_covered {k k' : ℕ} (hk : k' ≤ k) (hc : Covered rest zs)
    (h : (unpackKeys.loop k rest).isSome) : (unpackKeys.loop k' zs).isSome := by
  induction k' generalizing k rest zs with
  | zero => rfl
  | succ k' ih =>
    obtain ⟨k, rfl⟩ : ∃ m, k = m + 1 := ⟨k - 1, by omega⟩
    obtain ⟨keys, h⟩ := Option.isSome_iff_exists.mp h
    obtain ⟨⟨key, rest₁⟩, hkey, h⟩ := Option.bind_eq_some_iff.mp h
    obtain ⟨keys', h, -⟩ := Option.bind_eq_some_iff.mp h
    obtain ⟨bs', zs', hblob, hc'⟩ := unpackBlob_covered hc hkey
    obtain ⟨keys₀, hloop⟩ := Option.isSome_iff_exists.mp
      (ih (k := k) (by omega) hc' (Option.isSome_iff_exists.mpr ⟨_, h⟩))
    simp [unpackKeys.loop, hblob, hloop]

theorem unpackKeys_loop_stable {k : ℕ} {keys : List (List UInt8)}
    (h : unpackKeys.loop k rest = some keys) (w : List UInt8) :
    unpackKeys.loop k (rest ++ w) = some keys := by
  induction k generalizing rest keys with
  | zero => exact h
  | succ k ih =>
    obtain ⟨⟨key, rest₁⟩, hkey, h⟩ := Option.bind_eq_some_iff.mp h
    obtain ⟨keys', hloop, h⟩ := Option.bind_eq_some_iff.mp h
    rw [unpackKeys.loop, unpackBlob_stable hkey]
    show (unpackKeys.loop k (rest₁ ++ w)).bind _ = _
    rw [ih hloop]
    exact h

theorem unpackKeys_covered (hn : 0 ≤ n → 0 ≤ n' ∧ n' ≤ n) (hc : Covered rest zs)
    (h : (unpackKeys n rest).isSome) : (unpackKeys n' zs).isSome := by
  unfold unpackKeys at h ⊢
  split_ifs at h with hneg
  · cases h
  · obtain ⟨h0, hle⟩ := hn (by omega)
    rw [if_neg (by omega)]
    exact unpackKeys_loop_covered (by omega) hc h

theorem unpackKeys_stable {keys : List (List UInt8)} (h : unpackKeys n rest = some keys)
    (w : List UInt8) : unpackKeys n (rest ++ w) = some keys := by
  unfold unpackKeys at h ⊢
  split_ifs at h with hneg
  rw [if_neg hneg]
  exact unpackKeys_loop_stable h w

/-- The loop over records. -/
theorem unpackRecs_loop_covered {k k' : ℕ} (hk : k' ≤ k) (hc : Covered rest zs)
    (h : (unpackRecs.loop unpackBlob k rest).isSome) :
    (unpackRecs.loop unpackBlob k' zs).isSome := by
  induction k' generalizing k rest zs with
  | zero => rfl
  | succ k' ih =>
    obtain ⟨k, rfl⟩ : ∃ m, k = m + 1 := ⟨k - 1, by omega⟩
    obtain ⟨recs, h⟩ := Option.isSome_iff_exists.mp h
    obtain ⟨⟨key, rest₁⟩, hkey, h⟩ := Option.bind_eq_some_iff.mp h
    obtain ⟨⟨value, rest₂⟩, hvalue, h⟩ := Option.bind_eq_some_iff.mp h
    obtain ⟨recs', h, -⟩ := Option.bind_eq_some_iff.mp h
    obtain ⟨key', zs₁, hkey', hc₁⟩ := unpackBlob_covered hc hkey
    obtain ⟨value', zs₂, hvalue', hc₂⟩ := unpackBlob_covered hc₁ hvalue
    obtain ⟨recs₀, hloop⟩ := Option.isSome_iff_exists.mp
      (ih (k := k) (by omega) hc₂ (Option.isSome_iff_exists.mpr ⟨_, h⟩))
    simp [unpackRecs.loop, hkey', hvalue', hloop]

theorem unpackRecs_loop_stable {k : ℕ} {recs : List KeyValue}
    (h : unpackRecs.loop unpackBlob k rest = some recs) (w : List UInt8) :
    unpackRecs.loop unpackBlob k (rest ++ w) = some recs := by
  induction k generalizing rest recs with
  | zero => exact h
  | succ k ih =>
    obtain ⟨⟨key, rest₁⟩, hkey, h⟩ := Option.bind_eq_some_iff.mp h
    obtain ⟨⟨value, rest₂⟩, hvalue, h⟩ := Option.bind_eq_some_iff.mp h
    obtain ⟨recs', hloop, h⟩ := Option.bind_eq_some_iff.mp h
    rw [unpackRecs.loop, unpackBlob_stable hkey]
    show (unpackBlob (rest₁ ++ w)).bind _ = _
    rw [unpackBlob_stable hvalue]
    show (unpackRecs.loop unpackBlob k (rest₂ ++ w)).bind _ = _
    rw [ih hloop]
    exact h

theorem unpackRecs_covered (hn : 0 ≤ n → 0 ≤ n' ∧ n' ≤ n) (hc : Covered rest zs)
    (h : (unpackRecs unpackBlob n rest).isSome) : (unpackRecs unpackBlob n' zs).isSome := by
  unfold unpackRecs at h ⊢
  split_ifs at h with hneg
  · cases h
  · obtain ⟨h0, hle⟩ := hn (by omega)
    rw [if_neg (by omega)]
    exact unpackRecs_loop_covered (by omega) hc h

theorem unpackRecs_stable {recs : List KeyValue} (h : unpackRecs unpackBlob n rest = some recs)
    (w : List UInt8) : unpackRecs unpackBlob n (rest ++ w) = some recs := by
  unfold unpackRecs at h ⊢
  split_ifs at h with hneg
  rw [if_neg hneg]
  exact unpackRecs_loop_stable h w

/-! ## Headers -/

section Header

variable {layout : List Slot} {ints ints' : List ℤ} {size : ℤ}

/-- What is read of a message that is only partly known, against the one with zeros. -/
structure Read (ints ints' : List ℤ) (rest zs : List UInt8) : Prop where
  le : List.Forall₂ (fun z z' => 0 ≤ z → 0 ≤ z' ∧ z' ≤ z) ints ints'
  covered : Covered rest zs
  same : ints' = ints ∨ Beyond rest zs

theorem unpackHeader_covered (hc : Covered bs zs)
    (h : unpackHeader layout bs size = some (ints, rest)) :
    ∃ ints' rest', unpackHeader layout zs size = some (ints', rest') ∧ Read ints ints' rest rest' := by
  obtain ⟨⟨image, rest₁⟩, himage, h⟩ := Option.bind_eq_some_iff.mp h
  simp only [pure, Option.some.injEq, Prod.mk.injEq] at h
  obtain ⟨rfl, rfl⟩ := h
  obtain ⟨⟨-, hle⟩, rfl, rfl⟩ := mpiUnpack_eq_some.mp himage
  have hc' := hc.take size.toNat
  have hle' := hc'.length_le
  have hzs : mpiUnpack (layoutSize layout) (zs.take size.toNat) =
      some ((zs.take size.toNat).take (layoutSize layout),
        (zs.take size.toNat).drop (layoutSize layout)) :=
    mpiUnpack_eq_some.mpr ⟨⟨by omega, by omega⟩, by rw [Int.toNat_natCast], by rw [Int.toNat_natCast]⟩
  refine ⟨_, _, by rw [unpackHeader, hzs]; rfl, ?_, hc'.drop _, ?_⟩
  · exact covered_scan (hc'.take _) (by rw [List.length_take, Int.toNat_natCast]; omega)
  · rcases hc'.eq_or_beyond (layoutSize layout) with heq | hb
    · left
      rw [heq, Int.toNat_natCast]
    · exact Or.inr hb

theorem unpackHeader_stable (h : unpackHeader layout bs size = some (ints, rest)) (w : List UInt8) :
    ∃ w', unpackHeader layout (bs ++ w) size = some (ints, rest ++ w') := by
  obtain ⟨⟨image, rest₁⟩, himage, h⟩ := Option.bind_eq_some_iff.mp h
  simp only [pure, Option.some.injEq, Prod.mk.injEq] at h
  obtain ⟨rfl, rfl⟩ := h
  refine ⟨w.take (size.toNat - bs.length), ?_⟩
  rw [unpackHeader, List.take_append, mpiUnpack_stable himage]
  rfl

/-- The first member of a struct is the first four bytes. -/
theorem head_unpackHeader (h : unpackHeader (.int :: layout) bs size = some (ints, rest)) :
    ints.head? = some (decodeInt (bs.take 4)) := by
  obtain ⟨⟨image, rest₁⟩, himage, h⟩ := Option.bind_eq_some_iff.mp h
  simp only [pure, Option.some.injEq, Prod.mk.injEq] at h
  obtain ⟨rfl, rfl⟩ := h
  obtain ⟨⟨-, hle⟩, rfl, -⟩ := mpiUnpack_eq_some.mp himage
  have hsize : layoutSize (.int :: layout) = 4 + layoutSize layout := rfl
  rw [List.length_take, hsize] at hle
  rw [hsize, scan, List.head?_cons, List.take_take, List.take_take]
  congr 3
  omega

end Header

/-! ## The unpack functions -/

/-- An unpack function does not notice bytes behind what it reads, succeeds on unknown bytes only if
it does on zeros, and takes the type of the message from its first four bytes. -/
structure Unpacks {M : Type} (unpack : List UInt8 → ℤ → Option M) (mtype : M → ℤ) : Prop where
  stable : ∀ {bs size m}, unpack bs size = some m → ∀ w, unpack (bs ++ w) size = some m
  covered : ∀ {bs zs size}, Covered bs zs → (unpack bs size).isSome → (unpack zs size).isSome
  mtype : ∀ {bs size m}, unpack bs size = some m → mtype m = decodeInt (bs.take 4)

/-- It is enough to look at what follows the header. -/
theorem unpacks_of_body {M : Type} {unpack : List UInt8 → ℤ → Option M} {mtype : M → ℤ}
    (layout : List Slot) {body : List ℤ × List UInt8 → Option M}
    (hbody : ∀ bs size, unpack bs size = (unpackHeader (.int :: layout) bs size).bind body)
    (hreads : ∀ {ints rest m}, body (ints, rest) = some m →
      ints.head? = some (mtype m) ∧ (∀ w, body (ints, rest ++ w) = some m) ∧
        ∀ {ints' zs}, Read ints ints' rest zs → (body (ints', zs)).isSome) :
    Unpacks unpack mtype where
  stable {bs size m} h w := by
    rw [hbody] at h ⊢
    obtain ⟨⟨ints, rest⟩, hheader, h⟩ := Option.bind_eq_some_iff.mp h
    obtain ⟨w', hheader'⟩ := unpackHeader_stable hheader w
    rw [hheader']
    exact (hreads h).2.1 w'
  covered {bs zs size} hc h := by
    obtain ⟨m, h⟩ := Option.isSome_iff_exists.mp h
    rw [hbody] at h ⊢
    obtain ⟨⟨ints, rest⟩, hheader, h⟩ := Option.bind_eq_some_iff.mp h
    obtain ⟨ints', rest', hheader', hread⟩ := unpackHeader_covered hc hheader
    rw [hheader']
    exact (hreads h).2.2 hread
  mtype {bs size m} h := by
    rw [hbody] at h
    obtain ⟨⟨ints, rest⟩, hheader, h⟩ := Option.bind_eq_some_iff.mp h
    have hhead := head_unpackHeader hheader
    rw [(hreads h).1] at hhead
    exact Option.some.inj hhead

theorem Unpacks.map {M N : Type} {unpack : List UInt8 → ℤ → Option M} {mtype : M → ℤ}
    {mtype' : N → ℤ} {f : M → N} (h : Unpacks unpack mtype) (hf : ∀ m, mtype' (f m) = mtype m) :
    Unpacks (fun bs size => (unpack bs size).map f) mtype' where
  stable hm w := by
    obtain ⟨m, hread, rfl⟩ := Option.map_eq_some_iff.mp hm
    rw [h.stable hread w]
    rfl
  covered hc hm := by
    rw [Option.isSome_map] at hm ⊢
    exact h.covered hc hm
  mtype hm := by
    obtain ⟨m, hread, rfl⟩ := Option.map_eq_some_iff.mp hm
    rw [hf, h.mtype hread]

theorem unpacks_put : Unpacks unpackPutMessage Putm.mtype := by
  refine unpacks_of_body Putm.layout.tail (fun bs size => rfl) fun {ints rest pm} h => ?_
  split at h
  · rename_i hints
    cases hints
    obtain ⟨⟨key, rest₁⟩, hkey, h⟩ := Option.bind_eq_some_iff.mp h
    obtain ⟨⟨value, rest₂⟩, hvalue, h⟩ := Option.bind_eq_some_iff.mp h
    obtain rfl := Option.some.inj h
    refine ⟨rfl, fun w => ?_, fun hread => ?_⟩
    · simp [mpiUnpack_stable hkey w, mpiUnpack_stable hvalue w]
    · obtain ⟨_ | ⟨-, _ | ⟨-, _ | ⟨-, _ | ⟨hkeyLen, _ | ⟨hvalueLen, _ | _⟩⟩⟩⟩⟩, hc, hsame⟩ := hread
      simp only [List.cons.injEq, and_true] at hsame
      obtain ⟨key', zs₁, hkey', hc₁, hbeyond⟩ :=
        mpiUnpack_covered hc hkeyLen (hsame.imp_left fun h => h.2.2.2.1) hkey
      obtain ⟨value', zs₂, hvalue', -⟩ :=
        mpiUnpack_covered hc₁ hvalueLen (hsame.imp (fun h => h.2.2.2.2) hbeyond) hvalue
      simp [hkey', hvalue']
  · cases h

theorem unpacks_bput : Unpacks unpackBputMessage Bputm.mtype := by
  refine unpacks_of_body Bputm.layout.tail (fun bs size => rfl) fun {ints rest bpm} h => ?_
  split at h
  · rename_i hints
    cases hints
    obtain ⟨recs, hrecs, h⟩ := Option.bind_eq_some_iff.mp h
    obtain rfl := Option.some.inj h
    refine ⟨rfl, fun w => ?_, fun hread => ?_⟩
    · simp [unpackRecs_stable hrecs w]
    · obtain ⟨_ | ⟨-, _ | ⟨-, _ | ⟨-, _ | ⟨hnum, _ | _⟩⟩⟩⟩, hc, -⟩ := hread
      obtain ⟨recs', hrecs'⟩ := Option.isSome_iff_exists.mp
        (unpackRecs_covered hnum hc (Option.isSome_iff_exists.mpr ⟨recs, hrecs⟩))
      simp [hrecs']
  · cases h

theorem unpacks_get : Unpacks unpackGetMessage Getm.mtype := by
  refine unpacks_of_body Getm.layout.tail (fun bs size => rfl) fun {ints rest gm} h => ?_
  split at h
  · rename_i hints
    cases hints
    obtain ⟨⟨key, rest₁⟩, hkey, h⟩ := Option.bind_eq_some_iff.mp h
    obtain rfl := Option.some.inj h
    refine ⟨rfl, fun w => ?_, fun hread => ?_⟩
    · simp [mpiUnpack_stable hkey w]
    · obtain ⟨_ | ⟨-, _ | ⟨-, _ | ⟨-, _ | ⟨-, _ | ⟨hkeyLen, _ | ⟨-, _ | _⟩⟩⟩⟩⟩⟩, hc, hsame⟩ := hread
      simp only [List.cons.injEq, and_true] at hsame
      obtain ⟨key', zs₁, hkey', -⟩ :=
        mpiUnpack_covered hc hkeyLen (hsame.imp_left fun h => h.2.2.2.2.1) hkey
      simp [hkey']
  · cases h

theorem unpacks_bget : Unpacks unpackBgetMessage Bgetm.mtype := by
  refine unpacks_of_body Bgetm.layout.tail (fun bs size => rfl) fun {ints rest bgm} h => ?_
  split at h
  · rename_i hints
    cases hints
    obtain ⟨keys, hkeys, h⟩ := Option.bind_eq_some_iff.mp h
    obtain rfl := Option.some.inj h
    refine ⟨rfl, fun w => ?_, fun hread => ?_⟩
    · simp [unpackKeys_stable hkeys w]
    · obtain ⟨_ | ⟨-, _ | ⟨-, _ | ⟨-, _ | ⟨-, _ | ⟨hnum, _ | _⟩⟩⟩⟩⟩, hc, -⟩ := hread
      obtain ⟨keys', hkeys'⟩ := Option.isSome_iff_exists.mp
        (unpackKeys_covered hnum hc (Option.isSome_iff_exists.mpr ⟨keys, hkeys⟩))
      simp [hkeys']
  · cases h

theorem unpacks_del : Unpacks unpackDelMessage Delm.mtype := by
  refine unpacks_of_body Delm.layout.tail (fun bs size => rfl) fun {ints rest dm} h => ?_
  split at h
  · rename_i hints
    cases hints
    obtain ⟨⟨key, rest₁⟩, hkey, h⟩ := Option.bind_eq_some_iff.mp h
    obtain rfl := Option.some.inj h
    refine ⟨rfl, fun w => ?_, fun hread => ?_⟩
    · simp [mpiUnpack_stable hkey w]
    · obtain ⟨_ | ⟨-, _ | ⟨-, _ | ⟨-, _ | ⟨hkeyLen, _ | _⟩⟩⟩⟩, hc, hsame⟩ := hread
      simp only [List.cons.injEq, and_true] at hsame
      obtain ⟨key', zs₁, hkey', -⟩ :=
        mpiUnpack_covered hc hkeyLen (hsame.imp_left fun h => h.2.2.2) hkey
      simp [hkey']
  · cases h

theorem unpacks_bdel : Unpacks unpackBdelMessage Bdelm.mtype := by
  refine unpacks_of_body Bdelm.layout.tail (fun bs size => rfl) fun {ints rest bdm} h => ?_
  split at h
  · rename_i hints
    cases hints
    obtain ⟨keys, hkeys, h⟩ := Option.bind_eq_some_iff.mp h
    obtain rfl := Option.some.inj h
    refine ⟨rfl, fun w => ?_, fun hread => ?_⟩
    · simp [unpackKeys_stable hkeys w]
    · obtain ⟨_ | ⟨-, _ | ⟨-, _ | ⟨-, _ | ⟨hnum, _ | _⟩⟩⟩⟩, hc, -⟩ := hread
      obtain ⟨keys', hkeys'⟩ := Option.isSome_iff_exists.mp
        (unpackKeys_covered hnum hc (Option.isSome_iff_exists.mpr ⟨keys, hkeys⟩))
      simp [hkeys']
  · cases h

/-- The unpack functions of the six requests. -/
theorem unpacks_work {t : ℤ} (h1 : 1 ≤ t) (h6 : t ≤ 6) : Unpacks (unpackWork t) Work.mtype := by
  obtain rfl | rfl | rfl | rfl | rfl | rfl : t = 1 ∨ t = 2 ∨ t = 3 ∨ t = 4 ∨ t = 5 ∨ t = 6 := by
    omega
  · exact unpacks_put.map fun _ => rfl
  · exact unpacks_bput.map fun _ => rfl
  · exact unpacks_get.map fun _ => rfl
  · exact unpacks_bget.map fun _ => rfl
  · exact unpacks_del.map fun _ => rfl
  · exact unpacks_bdel.map fun _ => rfl

/-! ## What is returned -/

variable {recvbuf : List UInt8} {junk bm : Basem} {beyond : ℕ → UInt8}

/-- A header of no request. -/
def Basem.Refused (bm : Basem) : Prop := bm.size = 0 ∨ bm.mtype < 1 ∨ bm.mtype > 11

theorem receive_refused (h : recvHeader recvbuf = some bm) (hbm : bm.Refused) :
    (receiveRangesrvWork junk beyond recvbuf).1 < 0 := by
  unfold Basem.Refused at hbm
  simp only [receiveRangesrvWork, h, Option.getD_some]
  rw [if_pos hbm]
  decide

/-- The types that have an unpack function. -/
theorem receive_request (h : (recvHeader recvbuf).getD junk = bm) (hbm : ¬ bm.Refused)
    (h6 : bm.mtype ≤ 6) : receiveRangesrvWork junk beyond recvbuf =
      match unpackWork bm.mtype (bytesFrom recvbuf beyond bm.size) bm.size with
      | some m => (mdhimSuccess, some m)
      | none => (mdhimError, none) := by
  unfold Basem.Refused at hbm
  simp only [receiveRangesrvWork, h]
  rw [if_neg hbm, if_pos h6]

/-- The other types have no message. -/
theorem receive_other (h : recvHeader recvbuf = some bm) (hbm : ¬ bm.Refused)
    (h6 : ¬ bm.mtype ≤ 6) : receiveRangesrvWork junk beyond recvbuf =
      (if bm.mtype = 11 then 11 else if bm.mtype = 7 then 7 else mdhimSuccess, none) := by
  unfold Basem.Refused at hbm
  simp only [receiveRangesrvWork, h, Option.getD_some, reduceCtorEq, if_false]
  rw [if_neg hbm, if_neg h6]
  split_ifs <;> rfl

theorem mtype_recvHeader (h : recvHeader recvbuf = some bm) :
    bm.mtype = decodeInt (recvbuf.take 4) := by
  unfold recvHeader at h
  split at h
  · rename_i hheader
    obtain rfl := Option.some.inj h
    exact Option.some.inj (head_unpackHeader hheader)
  · cases h

/-- Without a header there are not twelve bytes. -/
theorem length_of_recvHeader (h : recvHeader recvbuf = none) : recvbuf.length < 12 := by
  by_contra hlen
  have hsize : layoutSize Basem.layout = 12 := rfl
  have himage : mpiUnpack (layoutSize Basem.layout) (recvbuf.take (recvbuf.length : ℤ).toNat) =
      some (recvbuf.take 12, recvbuf.drop 12) := by
    rw [Int.toNat_natCast, List.take_length, hsize]
    exact mpiUnpack_eq_some.mpr ⟨⟨by omega, by omega⟩, rfl, rfl⟩
  rw [recvHeader, unpackHeader, himage] at h
  cases h

theorem covered_bytesFrom (recvbuf : List UInt8) (beyond : ℕ → UInt8) (size : ℤ) :
    Covered (bytesFrom recvbuf beyond size) (bytesFrom recvbuf (fun _ => 0) size) := by
  have hzero : (List.range (size.toNat - recvbuf.length)).map (fun _ => (0 : UInt8)) =
      List.replicate (size.toNat - recvbuf.length) 0 := by simp
  refine ⟨recvbuf, _, _, rfl, by rw [bytesFrom, hzero], ?_⟩
  rw [List.length_map, List.length_range]

/-- Where the key length of a get message is. -/
theorem scan_getm (bytes : List UInt8) : scan Getm.layout bytes =
    [decodeInt (bytes.take 4), decodeInt ((bytes.drop 4).take 4),
      decodeInt ((bytes.drop 8).take 4), decodeInt ((bytes.drop 12).take 4),
      decodeInt ((bytes.drop 24).take 4), decodeInt ((bytes.drop 28).take 4)] := by
  simp only [Getm.layout, scan, List.drop_drop]

/-- A short buffer and zeros behind it hold a get message with an empty key. -/
theorem unpackGet_short (h : recvbuf.length < 12) :
    (unpackWork 3 (bytesFrom recvbuf (fun _ => 0) 32) 32).isSome := by
  have hbytes : bytesFrom recvbuf (fun _ => 0) 32 =
      recvbuf ++ List.replicate (32 - recvbuf.length) 0 := by
    rw [bytesFrom]
    simp
  have hlen : (bytesFrom recvbuf (fun _ => 0) 32).length = 32 := by
    rw [hbytes, List.length_append, List.length_replicate]
    omega
  have hkey : ((bytesFrom recvbuf (fun _ => 0) 32).drop 24).take 4 = List.replicate 4 0 := by
    rw [hbytes, List.drop_append, List.drop_eq_nil_of_le (by omega), List.nil_append,
      List.drop_replicate, List.take_replicate]
    congr 1
    omega
  generalize bytesFrom recvbuf (fun _ => 0) 32 = bytes at hlen hkey ⊢
  have hsize : layoutSize Getm.layout = 32 := rfl
  have hheader : unpackHeader Getm.layout bytes 32 = some (scan Getm.layout bytes, []) := by
    have himage := mpiUnpack_append (show (32 : ℤ) = bytes.length by rw [hlen]; rfl) []
    rw [List.append_nil] at himage
    rw [unpackHeader, hsize, List.take_of_length_le (by rw [hlen]; rfl), Nat.cast_ofNat, himage]
    rfl
  -- the key length is in the bytes that were not received
  have hzero : decodeInt (List.replicate 4 0) = 0 := by decide
  rw [scan_getm, hkey, hzero] at hheader
  show ((unpackGetMessage bytes 32).map Work.get).isSome
  rw [Option.isSome_map, unpackGetMessage, hheader]
  rfl

/-! ## When requests are decoded -/

/-- Without a header, the one in memory may be that of a request. -/
theorem exists_header_of_decoded (h : Decoded recvbuf) : ∃ bm, recvHeader recvbuf = some bm := by
  cases hheader : recvHeader recvbuf with
  | some bm => exact ⟨bm, rfl⟩
  | none =>
    exfalso
    obtain ⟨m, hm⟩ := Option.isSome_iff_exists.mp
      (unpackGet_short (length_of_recvHeader hheader))
    have hjunk : (recvHeader recvbuf).getD ⟨3, 0, 32⟩ = ⟨3, 0, 32⟩ := by
      rw [hheader, Option.getD_none]
    have hreq : receiveRangesrvWork ⟨3, 0, 32⟩ (fun _ => 0) recvbuf = _ :=
      receive_request hjunk (by unfold Basem.Refused; decide) (by decide)
    dsimp only at hreq
    rw [hm] at hreq
    rcases h ⟨3, 0, 32⟩ (fun _ => 0) (by decide) (by decide) (by decide) with
      hneg | hclose | ⟨bm, m', hbm, -⟩
    · rw [hreq] at hneg
      exact absurd hneg (show ¬ mdhimSuccess < 0 by decide)
    · rw [hreq] at hclose
      exact absurd hclose (show ¬ mdhimSuccess = 7 by decide)
    · rw [hheader] at hbm
      cases hbm

/-- Zeros behind the received bytes tell whether they hold the request. -/
theorem holdsRequest_of_decoded (h : Decoded recvbuf) : HoldsRequest recvbuf := by
  obtain ⟨bm, hheader⟩ := exists_header_of_decoded h
  refine ⟨bm, hheader, ?_⟩
  by_cases hbm : bm.Refused
  · rcases hbm with hsize | hlt | hgt
    · exact Or.inl hsize
    · exact Or.inr (Or.inl hlt)
    · exact Or.inr (Or.inr (Or.inl hgt))
  right; right; right
  have hret := h ⟨0, 0, 0⟩ (fun _ => 0) (by decide) (by decide) (by decide)
  by_cases h6 : bm.mtype ≤ 6
  · right
    refine ⟨h6, ?_⟩
    rw [receive_request (by rw [hheader, Option.getD_some]) hbm h6] at hret
    cases hm : unpackWork bm.mtype (bytesFrom recvbuf (fun _ => 0) bm.size) bm.size with
    | none => exact Or.inr rfl
    | some m =>
      rw [hm] at hret
      rcases hret with hneg | hclose | ⟨bm', m', hbm', -, -, -, -, halone⟩
      · exact absurd hneg (show ¬ mdhimSuccess < 0 by decide)
      · exact absurd hclose (show ¬ mdhimSuccess = 7 by decide)
      · left
        rw [hheader, Option.some.injEq] at hbm'
        rw [hbm', halone]
        rfl
  · left
    rw [receive_other hheader hbm h6] at hret
    rcases hret with hneg | hclose | ⟨bm', m', -, hm', -⟩
    · exfalso
      dsimp only at hneg
      unfold mdhimSuccess at hneg
      split_ifs at hneg <;> omega
    · dsimp only at hclose
      unfold mdhimSuccess at hclose
      split_ifs at hclose <;> omega
    · cases hm'

/-- A request that is unpacked with other bytes behind it is the one that the received bytes hold. -/
theorem unpackWork_alone {t size : ℤ} {m : Work} (h1 : 1 ≤ t) (h6 : t ≤ 6)
    (hholds : (unpackWork t recvbuf size).isSome ∨
      unpackWork t (bytesFrom recvbuf (fun _ => 0) size) size = none)
    (hm : unpackWork t (bytesFrom recvbuf beyond size) size = some m) :
    unpackWork t recvbuf size = some m := by
  have hunpacks := unpacks_work h1 h6
  have hsome : (unpackWork t recvbuf size).isSome := by
    refine hholds.resolve_right fun hnone => ?_
    have hzero := hunpacks.covered (covered_bytesFrom recvbuf beyond size)
      (Option.isSome_iff_exists.mpr ⟨m, hm⟩)
    rw [hnone] at hzero
    cases hzero
  obtain ⟨m', hm'⟩ := Option.isSome_iff_exists.mp hsome
  have hmore := hunpacks.stable hm' ((List.range (size.toNat - recvbuf.length)).map beyond)
  rw [← bytesFrom, hm] at hmore
  rw [hm', hmore]

theorem decoded_of_holdsRequest (h : HoldsRequest recvbuf) : Decoded recvbuf := by
  obtain ⟨bm, hheader, hcases⟩ := h
  intro junk beyond _ _ _
  by_cases hbm : bm.Refused
  · exact Or.inl (receive_refused hheader hbm)
  by_cases h6 : bm.mtype ≤ 6
  · have h1 : 1 ≤ bm.mtype := by
      unfold Basem.Refused at hbm
      omega
    have hholds : (unpackWork bm.mtype recvbuf bm.size).isSome ∨
        unpackWork bm.mtype (bytesFrom recvbuf (fun _ => 0) bm.size) bm.size = none := by
      unfold Basem.Refused at hbm
      rcases hcases with h | h | h | h | ⟨-, h⟩
      · omega
      · omega
      · omega
      · omega
      · exact h
    rw [receive_request (by rw [hheader, Option.getD_some]) hbm h6]
    cases hm : unpackWork bm.mtype (bytesFrom recvbuf beyond bm.size) bm.size with
    | none => exact Or.inl (by decide)
    | some m =>
      right; right
      have halone := unpackWork_alone h1 h6 hholds hm
      have hmtype : m.mtype = bm.mtype := by
        rw [(unpacks_work h1 h6).mtype halone, mtype_recvHeader hheader]
      exact ⟨bm, m, hheader, rfl, hmtype, by omega, by omega, halone⟩
  · rw [receive_other hheader hbm h6]
    have h7 : bm.mtype = 7 := by
      unfold Basem.Refused at hbm
      omega
    right; left
    dsimp only
    rw [if_neg (by omega), if_pos h7]

/-- A request is decoded from the received bytes, or rejected, exactly when these hold it, or no
request. -/
theorem decoded_iff (recvbuf : List UInt8) : Decoded recvbuf ↔ HoldsRequest recvbuf :=
  ⟨holdsRequest_of_decoded, decoded_of_holdsRequest⟩

/-- A message of type `MDHIM_COMMIT` is neither an error nor a request. -/
theorem not_decoded_commit : ¬ Decoded [11, 0, 0, 0, 0, 0, 0, 0, 12, 0, 0, 0] := by
  intro h
  have hret : receiveRangesrvWork ⟨0, 0, 0⟩ (fun _ => 0) [11, 0, 0, 0, 0, 0, 0, 0, 12, 0, 0, 0] =
      (11, none) := by rfl
  rcases h ⟨0, 0, 0⟩ (fun _ => 0) (by decide) (by decide) (by decide) with
    hneg | hclose | ⟨bm, m, -, hm, -⟩
  · rw [hret] at hneg
    exact absurd hneg (by decide)
  · rw [hret] at hclose
    exact absurd hclose (by decide)
  · rw [hret] at hm
    cases hm

end MpiToShmem
