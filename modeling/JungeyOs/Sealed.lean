import JungeyOs.Lib.Crc
import JungeyOs.Ota.Control
import Mathlib.Data.Nat.Bitwise

/-!
# Sealed sectors

What the checksum of `kernel/src/fs.rs`, lines 96–122, detects, and what the two formats that it
seals keep: the checkpoint (lines 160–199) and the control block of `kernel/src/ota.rs`, lines
119–151.

Results:
* `crc32_eq_ieee`: `crc32` is the check that is defined by a remainder.
* `crc_detects`: in a sealed sector no change of 32 bits in a row goes unseen.
* `formats_round_trip`: either format is read back field for field, and what a decoder accepts is
  sealed.
-/

namespace JungeyOs.Sealed

open Polynomial JungeyOs.Bytes JungeyOs.Jlfs JungeyOs.Crc

/-! ## The check as a remainder -/

/-- The generator of the check. -/
noncomputable def ieeeGen : (ZMod 2)[X] :=
  X ^ 32 + X ^ 26 + X ^ 23 + X ^ 22 + X ^ 16 + X ^ 12 + X ^ 11 + X ^ 10 + X ^ 8 + X ^ 7 + X ^ 5 +
    X ^ 4 + X ^ 2 + X + 1

/-- The bits of a string of bytes, of each byte the least significant first. -/
def dataBits (data : List UInt8) : List Bool := data.flatMap fun byte => lsb 8 byte.toNat

/-- The bits of the data and 32 zeros after them, of which the first 32 are inverted, divided by the
generator. -/
noncomputable def remainder (data : List UInt8) : (ZMod 2)[X] :=
  (X ^ (8 * data.length) * ofBits (List.replicate 32 true) + X ^ 32 * ofBits (dataBits data)) %ₘ
    ieeeGen

/-- The inverted remainder, whose highest power is the least significant bit. -/
noncomputable def ieeeCrc32 (data : List UInt8) : UInt32 :=
  UInt32.ofNat (Nat.ofBits fun i : Fin 32 => decide ((remainder data).coeff (31 - i.val) = 0))

/-- The constant of the loop (line 104): the generator without its leading term. -/
def POLY : ℕ := 0xEDB88320

theorem gen_poly : gen 32 POLY = ieeeGen := by
  have hbits : lsb 32 POLY =
      [false, false, false, false, false, true, false, false, true, true, false, false, false, false,
        false, true, false, false, false, true, true, true, false, true, true, false, true, true,
        false, true, true, true] := by decide
  rw [gen, reg, hbits]
  simp [ofBits, bit, ieeeGen]
  ring

theorem coeff_zero_ieeeGen : ieeeGen.coeff 0 ≠ 0 := by
  simp [ieeeGen]

/-- The numbers of a string of bytes. -/
def wordsOf (data : List UInt8) : List ℕ := data.map UInt8.toNat

theorem bitsOf_wordsOf (data : List UInt8) : bitsOf 8 (wordsOf data) = dataBits data :=
  List.flatMap_map ..

theorem wordsOf_lt (data : List UInt8) : ∀ x ∈ wordsOf data, x < 2 ^ 8 := by
  intro x hx
  obtain ⟨byte, -, rfl⟩ := List.mem_map.mp hx
  exact byte.toNat_lt

/-! ## The loop -/

/-- The register of `crc32` after the data, before it is inverted. -/
def register (data : List UInt8) : UInt32 :=
  data.foldl (fun crc byte => crcBit^[8] (crc ^^^ byte.toUInt32)) 0xFFFFFFFF

theorem crc32_eq (data : List UInt8) : crc32 data = ~~~register data := rfl

theorem toNat_crcBit (c : UInt32) : (crcBit c).toNat = shift POLY c.toNat := by
  have hlow : (c &&& 1).toNat = if c.toNat.testBit 0 then 1 else 0 := by
    rw [UInt32.toNat_and, UInt32.toNat_one, Nat.and_one_is_mod, Nat.testBit_zero]
    rcases Nat.mod_two_eq_zero_or_one c.toNat with h | h <;> simp [h]
  have hshift : (c >>> 1).toNat = c.toNat >>> 1 := by
    rw [UInt32.toNat_shiftRight]
    rfl
  rw [crcBit, shift, UInt32.toNat_xor, hshift]
  refine congrArg _ ?_
  cases hbit : c.toNat.testBit 0 with
  | false =>
    have hzero : c &&& 1 = 0 := UInt32.toNat_inj.mp (by rw [hlow, hbit]; rfl)
    rw [hzero]
    rfl
  | true =>
    have hone : c &&& 1 = 1 := UInt32.toNat_inj.mp (by rw [hlow, hbit]; rfl)
    rw [hone]
    rfl

theorem toNat_iterate_crcBit (k : ℕ) (c : UInt32) :
    (crcBit^[k] c).toNat = (shift POLY)^[k] c.toNat := by
  induction k with
  | zero => rfl
  | succ k ih => rw [Function.iterate_succ_apply', Function.iterate_succ_apply', toNat_crcBit, ih]

theorem toNat_register (data : List UInt8) :
    (register data).toNat = (wordsOf data).foldl (feed POLY 8) 0xFFFFFFFF := by
  have hfold : ∀ (data : List UInt8) (c : UInt32),
      (data.foldl (fun crc byte => crcBit^[8] (crc ^^^ byte.toUInt32)) c).toNat =
        (wordsOf data).foldl (feed POLY 8) c.toNat := by
    intro data
    induction data with
    | nil => exact fun c => rfl
    | cons byte data ih =>
      intro c
      rw [List.foldl_cons, ih, toNat_iterate_crcBit, UInt32.toNat_xor, UInt8.toNat_toUInt32]
      rfl
  exact hfold data 0xFFFFFFFF

theorem reg_ones : reg 32 0xFFFFFFFF = ofBits (List.replicate 32 true) := by
  have hbits : lsb 32 0xFFFFFFFF = List.replicate 32 true := by decide
  rw [reg, hbits]

theorem length_wordsOf (data : List UInt8) : (wordsOf data).length = data.length :=
  List.length_map _

/-- The register holds the remainder. -/
theorem reg_register (data : List UInt8) : reg 32 (register data).toNat = remainder data := by
  rw [toNat_register, reg_foldl_feed (by decide) (by decide) (by decide) (by decide)
    (wordsOf_lt data), bitsOf_wordsOf, length_wordsOf, reg_ones, gen_poly]
  rfl

theorem testBit_not (c : UInt32) {i : ℕ} (hi : i < 32) :
    (~~~c).toNat.testBit i = !c.toNat.testBit i := by
  have hnot : (~~~c).toBitVec.getLsbD i = !c.toBitVec.getLsbD i := by
    rw [UInt32.toBitVec_not, BitVec.getLsbD_not, decide_eq_true hi, Bool.true_and]
  exact hnot

/-- `crc32` is the check that is defined by a remainder. -/
theorem crc32_eq_ieee (data : List UInt8) : crc32 data = ieeeCrc32 data := by
  have hlt : Nat.ofBits (fun i : Fin 32 => decide ((remainder data).coeff (31 - i.val) = 0)) <
      UInt32.size := Nat.ofBits_lt_two_pow _
  refine UInt32.toNat_inj.mp (Nat.eq_of_testBit_eq fun i => ?_)
  rw [ieeeCrc32, UInt32.toNat_ofNat', Nat.mod_eq_of_lt hlt, crc32_eq]
  by_cases hi : i < 32
  · rw [testBit_not _ hi, Nat.testBit_ofBits_lt _ _ hi, ← reg_register, coeff_reg hi]
    cases (register data).toNat.testBit i <;> simp [bit]
  · have hpow : 2 ^ 32 ≤ 2 ^ i := Nat.pow_le_pow_right (by omega) (by omega)
    rw [Nat.testBit_lt_two_pow ((UInt32.toNat_lt _).trans_le hpow),
      Nat.testBit_lt_two_pow (hlt.trans_le hpow)]

/-! ## A sector as one string of bits -/

/-- The bits of a sector. -/
def sectorBits (s : Sector) : List Bool := dataBits s.toList

/-- Bit `i` of a sector: the least significant bit of a byte is its first. -/
def bitAt (s : Sector) (i : ℕ) : Bool := (s[i / 8]?.getD 0).toNat.testBit (i % 8)

section

variable {s s' : Sector}

theorem length_dataBits (data : List UInt8) : (dataBits data).length = 8 * data.length := by
  rw [← bitsOf_wordsOf, length_bitsOf, length_wordsOf]

theorem getElem?_dataBits (data : List UInt8) (i : ℕ) :
    (dataBits data)[i]? = data[i / 8]?.map fun byte => byte.toNat.testBit (i % 8) := by
  induction data generalizing i with
  | nil => rfl
  | cons byte data ih =>
    rw [dataBits, List.flatMap_cons]
    by_cases hi : i < 8
    · rw [List.getElem?_append_left (by simpa using hi), Nat.div_eq_of_lt hi, Nat.mod_eq_of_lt hi]
      simp [lsb, hi]
    · have hstep : i / 8 = (i - 8) / 8 + 1 ∧ i % 8 = (i - 8) % 8 := by omega
      rw [List.getElem?_append_right (by simpa using hi), length_lsb, hstep.1, hstep.2,
        List.getElem?_cons_succ]
      exact ih (i - 8)

theorem getElem?_sectorBits (s : Sector) {i : ℕ} (hi : i < 4096) :
    (sectorBits s)[i]? = some (bitAt s i) := by
  have hlt : i / 8 < SECTOR_SIZE := by
    unfold SECTOR_SIZE
    omega
  rw [sectorBits, getElem?_dataBits, bitAt, Vector.getElem?_toList, Vector.getElem?_eq_getElem hlt]
  rfl

/-- A sector is determined by its bits. -/
theorem ext_bitAt (h : ∀ i < 4096, bitAt s' i = bitAt s i) : s' = s := by
  refine Vector.ext fun j hj => UInt8.toNat_inj.mp (Nat.eq_of_testBit_eq fun i => ?_)
  by_cases hi : i < 8
  · have hsize : SECTOR_SIZE = 512 := rfl
    have hbit := h (8 * j + i) (by omega)
    rw [bitAt, bitAt, show (8 * j + i) / 8 = j by omega, show (8 * j + i) % 8 = i by omega,
      Vector.getElem?_eq_getElem hj, Vector.getElem?_eq_getElem hj] at hbit
    exact hbit
  · have hpow : 2 ^ 8 ≤ 2 ^ i := Nat.pow_le_pow_right (by omega) (by omega)
    rw [Nat.testBit_lt_two_pow ((UInt8.toNat_lt _).trans_le hpow),
      Nat.testBit_lt_two_pow ((UInt8.toNat_lt _).trans_le hpow)]

/-- The bits of a little-endian number are those of its bytes. -/
theorem lsb_ofLE (data : List UInt8) : lsb (8 * data.length) (ofLE data) = dataBits data := by
  induction data with
  | nil => rfl
  | cons byte data ih =>
    have hsplit := lsb_add (n := ofLE data) byte.toNat_lt (8 * data.length)
    rw [List.length_cons, Nat.mul_succ, Nat.add_comm, ofLE]
    refine hsplit.trans ?_
    rw [ih]
    rfl

theorem toNat_getU32 (s : Sector) (pos : ℕ) :
    (getU32 s pos).toNat = ofLE (slice s pos 4).toList := by
  have hlt := ofLE_lt (slice s pos 4).toList
  rw [Vector.length_toList] at hlt
  exact (UInt32.toNat_ofNat' ..).trans (Nat.mod_eq_of_lt hlt)

/-- The data and the checksum of a sector are one string, whose last 32 bits are the register. -/
theorem ofBits_sectorBits (s : Sector) : ofBits (sectorBits s) =
    X ^ 32 * ofBits (dataBits (slice s 0 CRC_OFF).toList) + reg 32 (getU32 s CRC_OFF).toNat := by
  have hbody : (slice s 0 CRC_OFF).toList = s.toList.take CRC_OFF := by
    rw [toList_slice s (by decide), List.drop_zero]
  have hfield : (slice s CRC_OFF 4).toList = s.toList.drop CRC_OFF := by
    rw [toList_slice s (by decide), List.take_of_length_le]
    rw [List.length_drop, Vector.length_toList]
    decide
  have hbits : lsb 32 (getU32 s CRC_OFF).toNat = dataBits (s.toList.drop CRC_OFF) := by
    have hle := lsb_ofLE (slice s CRC_OFF 4).toList
    rwa [Vector.length_toList, ← toNat_getU32, hfield] at hle
  have hlen : (dataBits (s.toList.drop CRC_OFF)).length = 32 := by
    rw [length_dataBits, List.length_drop, Vector.length_toList]
    rfl
  have hsplit : sectorBits s = dataBits (s.toList.take CRC_OFF) ++ dataBits (s.toList.drop CRC_OFF) := by
    rw [dataBits, dataBits, ← List.flatMap_append, List.take_append_drop]
    rfl
  rw [hsplit, ofBits_append, hlen, hbody, reg, hbits]
  ring

theorem reg_not (c : UInt32) : reg 32 (~~~c).toNat = reg 32 c.toNat + reg 32 0xFFFFFFFF := by
  have hxor : (~~~c).toNat = c.toNat ^^^ 0xFFFFFFFF := by
    refine Nat.eq_of_testBit_eq fun i => ?_
    rw [Nat.testBit_xor]
    by_cases hi : i < 32
    · have hone : Nat.testBit 0xFFFFFFFF i = true := by
        rw [show 0xFFFFFFFF = 2 ^ 32 - 1 from rfl, Nat.testBit_two_pow_sub_one, decide_eq_true hi]
      rw [testBit_not c hi, hone, Bool.xor_true]
    · have hpow : 2 ^ 32 ≤ 2 ^ i := Nat.pow_le_pow_right (by omega) (by omega)
      have hones : (0xFFFFFFFF : ℕ) < 2 ^ i := Nat.lt_of_lt_of_le (by decide) hpow
      rw [Nat.testBit_lt_two_pow ((UInt32.toNat_lt _).trans_le hpow),
        Nat.testBit_lt_two_pow ((UInt32.toNat_lt _).trans_le hpow), Nat.testBit_lt_two_pow hones]
      rfl
  rw [hxor, reg, ofBits_lsb_xor]
  rfl

/-- The generator divides what sets an intact sector apart from a fixed string. -/
theorem dvd_of_intact (h : intact s = true) : ieeeGen ∣ ofBits (sectorBits s) +
    (X ^ (8 * CRC_OFF) * reg 32 0xFFFFFFFF + reg 32 0xFFFFFFFF) := by
  set body := (slice s 0 CRC_OFF).toList with hbody
  have hlen : body.length = CRC_OFF := Vector.length_toList
  have hfield : register body = ~~~getU32 s CRC_OFF := by
    rw [intact, beq_iff_eq, crc32_eq] at h
    rw [← h, UInt32.not_not]
  have hdvd : gen 32 POLY ∣ X ^ (8 * (wordsOf body).length) * reg 32 0xFFFFFFFF +
      X ^ 32 * ofBits (bitsOf 8 (wordsOf body)) -
        reg 32 ((wordsOf body).foldl (feed POLY 8) 0xFFFFFFFF) :=
    dvd_foldl_feed (by decide) (by decide) (by decide) (by decide) (wordsOf_lt body)
  rw [← toNat_register, hfield, reg_not, bitsOf_wordsOf, length_wordsOf, hlen, gen_poly] at hdvd
  rw [ofBits_sectorBits, ← hbody]
  -- signs do not matter
  have hsigns (a b c d : (ZMod 2)[X]) : a + b - (c + d) = b + c + (a + d) := by
    linear_combination -add_self (c + d)
  rwa [hsigns] at hdvd

/-- In a sealed sector every change that is confined to 32 bits in a row is detected. -/
theorem intact_of_burst {k : ℕ} (hne : s' ≠ s) (hs : intact s = true)
    (hout : ∀ i < 4096, bitAt s' i ≠ bitAt s i → k ≤ i ∧ i < k + 32) : intact s' = false := by
  by_contra hintact
  have hs' := Bool.not_eq_false _ ▸ hintact
  have hlen : ∀ t : Sector, (sectorBits t).length = 4096 := fun t => by
    rw [sectorBits, length_dataBits, Vector.length_toList]
    rfl
  have hbits : sectorBits s' ≠ sectorBits s := by
    refine fun heq => hne (ext_bitAt fun i hi => Option.some.inj ?_)
    rw [← getElem?_sectorBits s' hi, ← getElem?_sectorBits s hi, heq]
  refine not_dvd_of_burst (w := 32) (k := k) coeff_zero_ieeeGen ?_ (by rw [hlen, hlen]) hbits
    (fun i hi => ?_) ?_
  · rw [← gen_poly]
    exact degree_gen 32 POLY
  · by_cases hlt : i < 4096
    · rw [getElem?_sectorBits _ hlt, getElem?_sectorBits _ hlt] at hi
      exact hout i hlt fun heq => hi (congrArg some heq)
    · rw [List.getElem?_eq_none (by rw [hlen]; omega),
        List.getElem?_eq_none (by rw [hlen]; omega)] at hi
      exact absurd rfl hi
  · have hsum := dvd_add (dvd_of_intact hs') (dvd_of_intact hs)
    have hcancel := add_self (X ^ (8 * CRC_OFF) * reg 32 0xFFFFFFFF + reg 32 0xFFFFFFFF)
    refine (congrArg (ieeeGen ∣ ·) ?_).mp hsum
    linear_combination hcancel

end

/-- `crc32` is the reflected check of the standard generator, for data of every length. In a sealed
sector, checksum included, no change that is confined to 32 bits in a row passes. -/
theorem crc_detects : (∀ data, crc32 data = ieeeCrc32 data) ∧
    ∀ (sector changed : Sector) (k : ℕ), changed ≠ sealSector sector →
      (∀ i < 4096, bitAt changed i ≠ bitAt (sealSector sector) i → k ≤ i ∧ i < k + 32) →
      intact changed = false :=
  ⟨crc32_eq_ieee, fun sector _ _ hne hout => intact_of_burst hne (intact_seal sector) hout⟩

/-! ## The formats -/

/-- A checkpoint whose directory fits, with no entries past its count, and any control block are
read back field for field. What either decoder accepts passes its own check and has its magic
number, and a checkpoint's count fits. -/
theorem formats_round_trip :
    (∀ cp : Checkpoint, cp.count ≤ MAX_FILES →
      (∀ i (h : i < MAX_FILES), cp.count ≤ i → cp.files[i] = FileEntry.empty) →
      Checkpoint.decode cp.encode = some cp) ∧
    (∀ c : Ota.Control, Ota.Control.decode c.encode = some c) ∧
    (∀ raw cp, Checkpoint.decode raw = some cp → intact raw = true ∧ getU64 raw 0 = CP_MAGIC ∧
      cp.count = (getU32 raw 24).toNat ∧ cp.count ≤ MAX_FILES) ∧
    ∀ raw c, Ota.Control.decode raw = some c → intact raw = true ∧ getU64 raw 0 = Ota.CB_MAGIC := by
  refine ⟨fun cp hcount hempty => Checkpoint.decode_encode ⟨hcount, hempty⟩,
    Ota.Control.decode_encode, fun raw cp h => ?_, fun raw c h => ?_⟩
  · have hcount := (Checkpoint.decode_wf h).count_le
    rw [Checkpoint.decode] at h
    by_cases hbad : getU64 raw 0 ≠ CP_MAGIC ∨ intact raw = false
    · rw [if_pos hbad] at h
      cases h
    · obtain ⟨hmagic, hintact⟩ := not_or.mp hbad
      rw [if_neg hbad] at h
      dsimp only at h
      by_cases hmany : (getU32 raw 24).toNat > MAX_FILES
      · rw [if_pos hmany] at h
        cases h
      · rw [if_neg hmany] at h
        refine ⟨Bool.not_eq_false _ ▸ hintact, not_not.mp hmagic, ?_, hcount⟩
        rw [← Option.some.inj h]
  · rw [Ota.Control.decode] at h
    by_cases hbad : getU64 raw 0 ≠ Ota.CB_MAGIC ∨ intact raw = false
    · rw [if_pos hbad] at h
      cases h
    · obtain ⟨hmagic, hintact⟩ := not_or.mp hbad
      exact ⟨Bool.not_eq_false _ ▸ hintact, not_not.mp hmagic⟩

end JungeyOs.Sealed
