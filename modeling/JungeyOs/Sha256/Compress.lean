import JungeyOs.Lib.Fips180
import JungeyOs.Sha256

/-!
# The compression function is the standard's

The kernel's tables and loops over machine words (`sha256.rs`, lines 15–28 and 85–128) against FIPS
180-4. A block of 64 bytes stands for the 512 bits that its bytes write, most significant bit first.

Results:
* `roundKey_eq`, `words_init`: the tables are the roots of the first primes.
* `schedule_spec`, `rounds_spec`: the two loops.
* `words_compress`: a compressed block.
-/

namespace JungeyOs.Sha256

open Fips180

/-! ## Bytes and bits -/

/-- The bits that bytes write. -/
def bytesBits (bytes : List UInt8) : List Bool := bytes.flatMap fun b => bitsOfNat 8 b.toNat

theorem length_byteBits (b : UInt8) : (bitsOfNat 8 b.toNat).length = 8 := length_bitsOfNat 8 _

theorem length_bytesBits (bytes : List UInt8) : (bytesBits bytes).length = 8 * bytes.length :=
  Blockwise.length_flatMap_of length_byteBits bytes

theorem bytesBits_append (bytes more : List UInt8) :
    bytesBits (bytes ++ more) = bytesBits bytes ++ bytesBits more := List.flatMap_append

/-- The bits of bytes write their big-endian number. -/
theorem natOfBits_bytesBits (bytes : List UInt8) :
    natOfBits (bytesBits bytes) = bytes.foldl (fun v b => v * 256 + b.toNat) 0 := by
  induction bytes using List.reverseRecOn with
  | nil => rfl
  | append_singleton bytes b ih =>
    have hone : bytesBits [b] = bitsOfNat 8 b.toNat := List.append_nil _
    rw [bytesBits_append, natOfBits_append, hone, length_bitsOfNat, natOfBits_bitsOfNat,
      Nat.mod_eq_of_lt b.toNat_lt, ih, List.foldl_append]
    rfl

/-! ## Words -/

/-- A byte at its place in a word. -/
theorem toNat_shiftLeft_byte (b : UInt8) {n : UInt32} (h : n.toNat ≤ 24) :
    (b.toUInt32 <<< n).toNat = b.toNat * 2 ^ n.toNat := by
  have hn : n.toNat % 32 = n.toNat := Nat.mod_eq_of_lt (by omega)
  have hb : b.toNat * 2 ^ n.toNat < 2 ^ 8 * 2 ^ n.toNat :=
    Nat.mul_lt_mul_of_pos_right b.toNat_lt (Nat.two_pow_pos _)
  have hle : 2 ^ 8 * 2 ^ n.toNat ≤ 2 ^ 32 := by
    rw [← Nat.pow_add]
    exact Nat.pow_le_pow_right (by decide) (by omega)
  rw [UInt32.toNat_shiftLeft, UInt8.toNat_toUInt32, Nat.shiftLeft_eq, hn,
    Nat.mod_eq_of_lt (Nat.lt_of_lt_of_le hb hle)]

theorem mul_or_eq {i low : ℕ} (h : low < 2 ^ i) (high : ℕ) :
    high * 2 ^ i ||| low = high * 2 ^ i + low := by
  rw [Nat.mul_comm, ← Nat.two_pow_add_eq_or_of_lt h]

/-- `u32::from_be_bytes` is the big-endian number of the four bytes. -/
theorem toNat_from_be_bytes (a b c d : UInt8) :
    (a.toUInt32 <<< 24 ||| b.toUInt32 <<< 16 ||| c.toUInt32 <<< 8 ||| d.toUInt32).toNat =
      ((a.toNat * 256 + b.toNat) * 256 + c.toNat) * 256 + d.toNat := by
  have hb := b.toNat_lt
  have hc := c.toNat_lt
  have hd := d.toNat_lt
  have h24 : (a.toUInt32 <<< 24).toNat = a.toNat * 2 ^ 24 := toNat_shiftLeft_byte a (by decide)
  have h16 : (b.toUInt32 <<< 16).toNat = b.toNat * 2 ^ 16 := toNat_shiftLeft_byte b (by decide)
  have h8 : (c.toUInt32 <<< 8).toNat = c.toNat * 2 ^ 8 := toNat_shiftLeft_byte c (by decide)
  have hab : a.toNat * 2 ^ 24 ||| b.toNat * 2 ^ 16 = (a.toNat * 256 + b.toNat) * 2 ^ 16 := by
    rw [mul_or_eq (by omega)]
    omega
  have habc : (a.toNat * 256 + b.toNat) * 2 ^ 16 ||| c.toNat * 2 ^ 8 =
      ((a.toNat * 256 + b.toNat) * 256 + c.toNat) * 2 ^ 8 := by
    rw [mul_or_eq (by omega)]
    omega
  rw [UInt32.toNat_or, UInt32.toNat_or, UInt32.toNat_or, h24, h16, h8, UInt8.toNat_toUInt32, hab,
    habc, mul_or_eq hd, show 2 ^ 8 = 256 from rfl]

theorem take_four {bytes : List UInt8} {k : ℕ} (h : k + 4 ≤ bytes.length) :
    (bytes.drop k).take 4 = [bytes[k]?.getD 0, bytes[k + 1]?.getD 0, bytes[k + 2]?.getD 0,
      bytes[k + 3]?.getD 0] := by
  rw [List.drop_eq_getElem_cons (by omega), List.drop_eq_getElem_cons (by omega),
    List.drop_eq_getElem_cons (by omega), List.drop_eq_getElem_cons (by omega)]
  simp only [List.take_succ_cons, List.take_zero]
  rw [List.getElem?_eq_getElem (by omega), List.getElem?_eq_getElem (by omega),
    List.getElem?_eq_getElem (by omega), List.getElem?_eq_getElem (by omega)]
  rfl

/-- The words of a block are those of its bits. -/
theorem beWord_eq (block : Vector UInt8 64) {j : ℕ} (hj : j < 16) :
    (beWord block (j * 4)).toBitVec = word (bytesBits block.toList) j := by
  have hbits : Blockwise.blockAt (8 * 4) (bytesBits block.toList) j =
      bytesBits (Blockwise.blockAt 4 block.toList j) :=
    Blockwise.blockAt_flatMap length_byteBits block.toList j
  have hlen : 4 * j + 4 ≤ block.toList.length := by rw [Vector.length_toList]; omega
  have hget (i : ℕ) : block.toList[i]? = block[i]? := Vector.getElem?_toList
  apply BitVec.eq_of_toNat_eq
  rw [word, hbits, Blockwise.blockAt, take_four hlen, natOfBits_bytesBits, BitVec.toNat_ofNat,
    hget, hget, hget, hget, Nat.mul_comm 4 j]
  have hnat := toNat_from_be_bytes (block[j * 4]?.getD 0) (block[j * 4 + 1]?.getD 0)
    (block[j * 4 + 2]?.getD 0) (block[j * 4 + 3]?.getD 0)
  simp only [List.foldl_cons, List.foldl_nil, Nat.zero_mul, Nat.zero_add]
  rw [← hnat, Nat.mod_eq_of_lt (UInt32.toNat_lt _)]
  rfl

/-- `rotate_right` is the rotation of the standard. -/
theorem rotateRight_toBitVec (x : UInt32) {n : UInt32} (h0 : 0 < n.toNat) (h : n.toNat < 32) :
    (rotateRight x n).toBitVec = x.toBitVec.rotateRight n.toNat := by
  have hright : n.toBitVec % 32 = n.toBitVec := by
    apply BitVec.eq_of_toNat_eq
    rw [BitVec.toNat_umod]
    exact Nat.mod_eq_of_lt h
  have hleft : ((32 - n).toBitVec % 32).toNat = 32 - n.toNat := by
    rw [BitVec.toNat_umod]
    show (32 - n).toNat % 32 = _
    rw [UInt32.toNat_sub_of_le 32 n (by rw [UInt32.le_iff_toNat_le]; exact Nat.le_of_lt h)]
    show (32 - n.toNat) % 32 = _
    omega
  rw [rotateRight, UInt32.toBitVec_or, UInt32.toBitVec_shiftRight, UInt32.toBitVec_shiftLeft, hright,
    BitVec.rotateRight_def, Nat.mod_eq_of_lt h, BitVec.ushiftRight_eq', BitVec.shiftLeft_eq', hleft]
  rfl

/-! ## The tables -/

set_option maxRecDepth 4000 in
theorem rootBits_K : ∀ t : Fin 64, (SHA256_K.get t).toNat = rootBits 3 (primes[t]?.getD 0) := by
  rw [primes_eq]
  decide

theorem rootBits_INIT : ∀ i : Fin 8, (SHA256_INIT.get i).toNat = rootBits 2 (primes[i]?.getD 0) := by
  rw [primes_eq]
  decide

/-- The round constants are the standard's. -/
theorem roundKey_eq {t : ℕ} (h : t < 64) :
    (SHA256_K[t]?.getD 0).toBitVec = roundConstant t := by
  have hroot : SHA256_K[t].toNat = rootBits 3 (primes[t]?.getD 0) := rootBits_K ⟨t, h⟩
  rw [Vector.getElem?_eq_getElem h, Option.getD_some, roundConstant, nth_prime h, ← hroot]
  exact ((BitVec.ofNat_toNat 32 _).trans (BitVec.setWidth_eq _)).symm

theorem initialWord_eq {i : ℕ} (h : i < 8) : SHA256_INIT[i].toBitVec = initialWord i := by
  have hroot : SHA256_INIT[i].toNat = rootBits 2 (primes[i]?.getD 0) := rootBits_INIT ⟨i, h⟩
  rw [initialWord, nth_prime (by omega), ← hroot]
  exact ((BitVec.ofNat_toNat 32 _).trans (BitVec.setWidth_eq _)).symm

/-- A hash value in the standard's terms. -/
def words (h : Vector UInt32 8) : Work :=
  ⟨(h.get 0).toBitVec, (h.get 1).toBitVec, (h.get 2).toBitVec, (h.get 3).toBitVec,
    (h.get 4).toBitVec, (h.get 5).toBitVec, (h.get 6).toBitVec, (h.get 7).toBitVec⟩

/-- The initial hash value is the standard's. -/
theorem words_init : words SHA256_INIT = initial := by
  ext1 <;> exact initialWord_eq (by decide)

/-! ## The loops -/

/-- Two rotations and a third word, as in all four functions. -/
theorem rotations_eq (x y : UInt32) {m n : UInt32} (hm : 0 < m.toNat ∧ m.toNat < 32)
    (hn : 0 < n.toNat ∧ n.toNat < 32) :
    (rotateRight x m ^^^ rotateRight x n ^^^ y).toBitVec =
      x.toBitVec.rotateRight m.toNat ^^^ x.toBitVec.rotateRight n.toNat ^^^ y.toBitVec := by
  rw [UInt32.toBitVec_xor, UInt32.toBitVec_xor, rotateRight_toBitVec x hm.1 hm.2,
    rotateRight_toBitVec x hn.1 hn.2]

theorem smallSigma0_eq (x : UInt32) :
    (rotateRight x 7 ^^^ rotateRight x 18 ^^^ (x >>> 3)).toBitVec = smallSigma0 x.toBitVec :=
  rotations_eq x (x >>> 3) (by decide) (by decide)

theorem smallSigma1_eq (x : UInt32) :
    (rotateRight x 17 ^^^ rotateRight x 19 ^^^ (x >>> 10)).toBitVec = smallSigma1 x.toBitVec :=
  rotations_eq x (x >>> 10) (by decide) (by decide)

theorem bigSigma0_eq (x : UInt32) :
    (rotateRight x 2 ^^^ rotateRight x 13 ^^^ rotateRight x 22).toBitVec =
      bigSigma0 x.toBitVec := by
  rw [rotations_eq x _ (by decide) (by decide), rotateRight_toBitVec x (by decide) (by decide)]
  rfl

theorem bigSigma1_eq (x : UInt32) :
    (rotateRight x 6 ^^^ rotateRight x 11 ^^^ rotateRight x 25).toBitVec =
      bigSigma1 x.toBitVec := by
  rw [rotations_eq x _ (by decide) (by decide), rotateRight_toBitVec x (by decide) (by decide)]
  rfl

/-- The words that the loop of the schedule has made. -/
theorem schedule_prefix (block : Vector UInt8 64) {k : ℕ} (hk : 16 + k ≤ 64) {t : ℕ}
    (ht : t < 16 + k) :
    (((List.range' 16 k).foldl scheduleStep
      (Vector.ofFn fun i => if i.val < 16 then beWord block (i.val * 4) else 0))[t]?.getD 0).toBitVec =
        Fips180.schedule (word (bytesBits block.toList)) t := by
  induction k generalizing t with
  | zero =>
    have h16 : t < 16 := ht
    rw [List.range'_zero, List.foldl_nil, Vector.getElem?_eq_getElem (by omega), Option.getD_some,
      Vector.getElem_ofFn, if_pos h16, beWord_eq block h16, schedule_lt h16]
  | succ k ih =>
    have hprev := @ih (by omega)
    rw [List.range'_concat, List.foldl_append, List.foldl_cons, List.foldl_nil, Nat.one_mul]
    generalize (List.range' 16 k).foldl scheduleStep _ = w at hprev ⊢
    rw [scheduleStep]
    dsimp only
    rw [Vector.getElem?_setIfInBounds]
    by_cases h : 16 + k = t
    · -- the word of this step
      subst h
      rw [if_pos rfl, if_pos (by omega), Option.getD_some, UInt32.toBitVec_add, UInt32.toBitVec_add,
        UInt32.toBitVec_add, smallSigma0_eq, smallSigma1_eq, hprev (by omega), hprev (by omega),
        hprev (by omega), hprev (by omega), schedule_ge (Nat.le_add_right 16 k)]
      ac_rfl
    · rw [if_neg h]
      exact hprev (by omega)

/-- The message schedule is the standard's. -/
theorem schedule_spec (block : Vector UInt8 64) {t : ℕ} (ht : t < 64) :
    ((schedule block)[t]?.getD 0).toBitVec =
      Fips180.schedule (word (bytesBits block.toList)) t :=
  schedule_prefix block (k := 48) (by decide) ht

/-- A round of the loop is a round of the standard. -/
theorem words_round {w : Vector UInt32 64} {W : ℕ → BitVec 32} {t : ℕ} (ht : t < 64)
    (hw : (w[t]?.getD 0).toBitVec = W t) (h : Vector UInt32 8) :
    words (round w h t) = step W (words h) t := by
  have hT1 : (h[7] + (rotateRight h[4] 6 ^^^ rotateRight h[4] 11 ^^^ rotateRight h[4] 25) +
      ((h[4] &&& h[5]) ^^^ (~~~h[4] &&& h[6])) + SHA256_K[t]?.getD 0 + w[t]?.getD 0).toBitVec =
      (words h).h + bigSigma1 (words h).e + Ch (words h).e (words h).f (words h).g +
        roundConstant t + W t := by
    rw [UInt32.toBitVec_add, UInt32.toBitVec_add, UInt32.toBitVec_add, UInt32.toBitVec_add,
      bigSigma1_eq, roundKey_eq ht, hw]
    rfl
  have hT2 : ((rotateRight h[0] 2 ^^^ rotateRight h[0] 13 ^^^ rotateRight h[0] 22) +
      ((h[0] &&& h[1]) ^^^ (h[0] &&& h[2]) ^^^ (h[1] &&& h[2]))).toBitVec =
      bigSigma0 (words h).a + Maj (words h).a (words h).b (words h).c := by
    rw [UInt32.toBitVec_add, bigSigma0_eq]
    rfl
  rw [step, ← hT1, ← hT2]
  rfl

/-- The rounds are the standard's. -/
theorem rounds_spec {w : Vector UInt32 64} {W : ℕ → BitVec 32} {k : ℕ} (hk : k ≤ 64)
    (hw : ∀ t < 64, (w[t]?.getD 0).toBitVec = W t) (h : Vector UInt32 8) :
    words ((List.range k).foldl (round w) h) = (List.range k).foldl (step W) (words h) := by
  induction k with
  | zero => rfl
  | succ k ih =>
    rw [List.range_succ, List.foldl_append, List.foldl_append, List.foldl_cons, List.foldl_nil,
      List.foldl_cons, List.foldl_nil, words_round hk (hw k hk), ih (by omega)]

/-- **A compressed block is the standard's next hash value.** -/
theorem words_compress (state : Vector UInt32 8) (block : Vector UInt8 64) :
    words (compress state block) = Fips180.compress (words state) (bytesBits block.toList) := by
  have hrounds := rounds_spec (Nat.le_refl 64) (fun t ht => schedule_spec block ht) state
  have hadd (i : ℕ) (hi : i < 8) : (compress state block)[i].toBitVec =
      ((List.range 64).foldl (round (schedule block)) state)[i].toBitVec + state[i].toBitVec := by
    rw [compress, Vector.getElem_ofFn, UInt32.toBitVec_add, BitVec.add_comm]
    rfl
  rw [Fips180.compress, ← hrounds]
  ext1 <;> exact hadd _ (by decide)

end JungeyOs.Sha256
