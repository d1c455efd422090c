import JungeyOs.Lib.Blockwise
import Mathlib.Data.Nat.Nth
import Mathlib.Data.Nat.NthRoot.Defs
import Mathlib.Data.Nat.Prime.Basic

/-!
# SHA-256 as FIPS 180-4 defines it

The standard's terms: a message is a string of bits, a word has 32 bits, and a string of bits is read
and written with the most significant bit first. The constants are the fractional parts of roots of
the first primes (4.2.2, 5.3.3).

Results:
* `natOfBits_append`, `bitsOfNat_add`: strings of bits and the numbers that they write.
* `nth_prime`: the primes that the constants come from.
* `schedule_lt`, `schedule_ge`: the message schedule.
-/

namespace JungeyOs.Fips180

/-! ## Bit strings -/

/-- The number that a string of bits writes. -/
def natOfBits (bits : List Bool) : ℕ := bits.foldl (fun v b => 2 * v + b.toNat) 0

/-- A number as a string of `len` bits. -/
def bitsOfNat (len v : ℕ) : List Bool := (List.range len).map fun i => v.testBit (len - 1 - i)

@[simp] theorem length_bitsOfNat (len v : ℕ) : (bitsOfNat len v).length = len := by
  rw [bitsOfNat, List.length_map, List.length_range]

theorem natOfBits_concat (bits : List Bool) (b : Bool) :
    natOfBits (bits ++ [b]) = 2 * natOfBits bits + b.toNat := by
  rw [natOfBits, List.foldl_append]
  rfl

theorem natOfBits_append (bits more : List Bool) :
    natOfBits (bits ++ more) = natOfBits bits * 2 ^ more.length + natOfBits more := by
  induction more using List.reverseRecOn with
  | nil => rw [List.append_nil, List.length_nil, Nat.pow_zero, Nat.mul_one]; rfl
  | append_singleton more b ih =>
    rw [← List.append_assoc, natOfBits_concat, natOfBits_concat, ih, List.length_append,
      List.length_singleton, Nat.pow_succ, Nat.mul_add, Nat.add_assoc, Nat.mul_left_comm,
      Nat.mul_comm 2]

/-- A string of bits is that of the higher part of the number and that of the lower part. -/
theorem bitsOfNat_add (high low v : ℕ) :
    bitsOfNat (high + low) v = bitsOfNat high (v / 2 ^ low) ++ bitsOfNat low v := by
  rw [bitsOfNat, List.range_add, List.map_append, List.map_map]
  congr 1
  · apply List.map_congr_left
    intro i hi
    have hlt := List.mem_range.mp hi
    rw [Nat.testBit_div_two_pow]
    congr 1
    omega
  · apply List.map_congr_left
    intro i hi
    show v.testBit (high + low - 1 - (high + i)) = _
    congr 1
    omega

theorem natOfBits_bitsOfNat (len v : ℕ) : natOfBits (bitsOfNat len v) = v % 2 ^ len := by
  induction len generalizing v with
  | zero => rw [Nat.pow_zero, Nat.mod_one]; rfl
  | succ len ih =>
    have hone : bitsOfNat 1 v = [v.testBit 0] := rfl
    rw [bitsOfNat_add, hone, natOfBits_concat, ih, Nat.pow_one, Nat.pow_succ', Nat.mod_mul,
      Nat.testBit_zero, Nat.add_comm]
    rcases Nat.mod_two_eq_zero_or_one v with h | h <;> rw [h] <;> rfl

/-- Only the lower bits of the number are written. -/
theorem bitsOfNat_mod (len v : ℕ) : bitsOfNat len (v % 2 ^ len) = bitsOfNat len v := by
  apply List.map_congr_left
  intro i hi
  have hlt := List.mem_range.mp hi
  rw [Nat.testBit_mod_two_pow, decide_eq_true (by omega), Bool.true_and]

/-! ## The constants -/

/-- The first 32 bits of the fractional part of the `k`-th root of `p`. -/
def rootBits (k p : ℕ) : ℕ := Nat.nthRoot k (p * 2 ^ (32 * k)) % 2 ^ 32

/-- `K_t` (4.2.2). -/
noncomputable def roundConstant (t : ℕ) : BitVec 32 :=
  BitVec.ofNat 32 (rootBits 3 (Nat.nth Nat.Prime t))

/-- Word `i` of `H⁽⁰⁾` (5.3.3). -/
noncomputable def initialWord (i : ℕ) : BitVec 32 :=
  BitVec.ofNat 32 (rootBits 2 (Nat.nth Nat.Prime i))

/-- The first 64 primes. -/
def primes : List ℕ := (List.range 312).filter Nat.Prime

/-- Below `18²`, trial division by the numbers below 18 finds the primes. -/
theorem prime_iff_trial {p : ℕ} (h : p < 18 ^ 2) :
    p.Prime ↔ 2 ≤ p ∧ ∀ m < 18, 2 ≤ m → p % m = 0 → m = p := by
  constructor
  · intro hp
    refine ⟨hp.two_le, fun m _ hm hmod => ?_⟩
    exact (hp.eq_one_or_self_of_dvd m (Nat.dvd_of_mod_eq_zero hmod)).resolve_left (by omega)
  · rintro ⟨htwo, htrial⟩
    by_contra hp
    have hsq := Nat.minFac_sq_le_self (by omega) hp
    have hlt : p.minFac < 18 := (Nat.pow_lt_pow_iff_left (by decide)).mp (hsq.trans_lt h)
    have hfactor : p.minFac.Prime := Nat.minFac_prime (by omega)
    have heq := htrial p.minFac hlt hfactor.two_le (Nat.mod_eq_zero_of_dvd p.minFac_dvd)
    exact hp (heq ▸ hfactor)

theorem primes_eq : primes = [
    2, 3, 5, 7, 11, 13, 17, 19, 23, 29, 31, 37, 41, 43, 47, 53, 59, 61, 67, 71, 73, 79, 83, 89,
    97, 101, 103, 107, 109, 113, 127, 131, 137, 139, 149, 151, 157, 163, 167, 173, 179, 181, 191,
    193, 197, 199, 211, 223, 227, 229, 233, 239, 241, 251, 257, 263, 269, 271, 277, 281, 283, 293,
    307, 311] := by
  have htrial : primes = (List.range 312).filter
      fun p => 2 ≤ p ∧ ∀ m < 18, 2 ≤ m → p % m = 0 → m = p := by
    apply List.filter_congr
    intro p hp
    have hlt := List.mem_range.mp hp
    exact decide_eq_decide.mpr (prime_iff_trial (by omega))
  rw [htrial]
  decide

/-- The entry at `t` of the numbers below `n` that satisfy `p` has `t` of them below itself. -/
theorem count_of_filter {p : ℕ → Prop} [DecidablePred p] {n t x : ℕ}
    (h : ((List.range n).filter p)[t]? = some x) : p x ∧ Nat.count p x = t := by
  induction n with
  | zero => cases h
  | succ n ih =>
    rw [List.range_succ, List.filter_append] at h
    rcases Nat.lt_or_ge t ((List.range n).filter p).length with hlt | hge
    · rw [List.getElem?_append_left hlt] at h
      exact ih h
    · rw [List.getElem?_append_right hge] at h
      by_cases hn : p n
      · have hlast : [n].filter (fun b => decide (p b)) = [n] := by simp [hn]
        rw [hlast, List.getElem?_singleton] at h
        split_ifs at h with hindex
        cases h
        refine ⟨hn, ?_⟩
        rw [Nat.count, List.countP_eq_length_filter]
        omega
      · have hlast : [n].filter (fun b => decide (p b)) = [] := by simp [hn]
        rw [hlast] at h
        cases h

theorem length_primes : primes.length = 64 := by
  rw [primes_eq]
  decide

theorem nth_prime {t : ℕ} (h : t < 64) : Nat.nth Nat.Prime t = primes[t]?.getD 0 := by
  have hlt : t < primes.length := h.trans_eq length_primes.symm
  obtain ⟨x, hx⟩ : ∃ x, primes[t]? = some x := ⟨_, List.getElem?_eq_getElem hlt⟩
  obtain ⟨hprime, hcount⟩ := count_of_filter hx
  have hnth := Nat.nth_count hprime
  rw [hcount] at hnth
  rw [hnth, hx]
  rfl

/-! ## The functions (4.1.2) -/

def Ch (x y z : BitVec 32) : BitVec 32 := (x &&& y) ^^^ (~~~x &&& z)

def Maj (x y z : BitVec 32) : BitVec 32 := (x &&& y) ^^^ (x &&& z) ^^^ (y &&& z)

def bigSigma0 (x : BitVec 32) : BitVec 32 := x.rotateRight 2 ^^^ x.rotateRight 13 ^^^ x.rotateRight 22

def bigSigma1 (x : BitVec 32) : BitVec 32 := x.rotateRight 6 ^^^ x.rotateRight 11 ^^^ x.rotateRight 25

def smallSigma0 (x : BitVec 32) : BitVec 32 := x.rotateRight 7 ^^^ x.rotateRight 18 ^^^ (x >>> 3)

def smallSigma1 (x : BitVec 32) : BitVec 32 := x.rotateRight 17 ^^^ x.rotateRight 19 ^^^ (x >>> 10)

/-! ## The hash computation (5.1.1, 6.2.2) -/

theorem exists_zeros (len : ℕ) : ∃ k, (len + 1 + k) % 512 = 448 :=
  ⟨(448 + 512 - (len + 1) % 512) % 512, by omega⟩

/-- The number of zero bits: the smallest solution of `len + 1 + k ≡ 448 (mod 512)`. -/
def zeros (len : ℕ) : ℕ := Nat.find (exists_zeros len)

/-- The padded message. The standard takes messages shorter than `2^64` bits. -/
def pad (message : List Bool) : List Bool :=
  message ++ [true] ++ List.replicate (zeros message.length) false ++ bitsOfNat 64 message.length

/-- Word `j` of a block of 512 bits. -/
def word (block : List Bool) (j : ℕ) : BitVec 32 :=
  BitVec.ofNat 32 (natOfBits (Blockwise.blockAt 32 block j))

/-- The message schedule `W_t` over the words of a block. -/
def schedule (M : ℕ → BitVec 32) (t : ℕ) : BitVec 32 :=
  if t < 16 then M t
  else smallSigma1 (schedule M (t - 2)) + schedule M (t - 7) + smallSigma0 (schedule M (t - 15)) +
    schedule M (t - 16)
termination_by t

/-- The working variables, and the words of a hash value in the same order. -/
@[ext] structure Work where
  a : BitVec 32
  b : BitVec 32
  c : BitVec 32
  d : BitVec 32
  e : BitVec 32
  f : BitVec 32
  g : BitVec 32
  h : BitVec 32

/-- Round `t` (6.2.2, step 3). -/
noncomputable def step (W : ℕ → BitVec 32) (v : Work) (t : ℕ) : Work :=
  let T1 := v.h + bigSigma1 v.e + Ch v.e v.f v.g + roundConstant t + W t
  let T2 := bigSigma0 v.a + Maj v.a v.b v.c
  ⟨T1 + T2, v.a, v.b, v.c, v.d + T1, v.e, v.f, v.g⟩

/-- The intermediate hash value (6.2.2, step 4). -/
def Work.add (H v : Work) : Work :=
  ⟨v.a + H.a, v.b + H.b, v.c + H.c, v.d + H.d, v.e + H.e, v.f + H.f, v.g + H.g, v.h + H.h⟩

/-- One block. -/
noncomputable def compress (H : Work) (block : List Bool) : Work :=
  H.add ((List.range 64).foldl (step (schedule (word block))) H)

/-- `H⁽⁰⁾`. -/
noncomputable def initial : Work :=
  ⟨initialWord 0, initialWord 1, initialWord 2, initialWord 3, initialWord 4, initialWord 5,
    initialWord 6, initialWord 7⟩

/-- The words of a hash value as a string of bits. -/
def Work.bits (H : Work) : List Bool :=
  [H.a, H.b, H.c, H.d, H.e, H.f, H.g, H.h].flatMap fun x => bitsOfNat 32 x.toNat

/-- The message digest. -/
noncomputable def sha256 (message : List Bool) : List Bool :=
  (Blockwise.run 512 compress initial (pad message)).bits

theorem zeros_eq (len : ℕ) : zeros len = (448 + 512 - (len + 1) % 512) % 512 := by
  rw [zeros, Nat.find_eq_iff]
  constructor
  · omega
  · intro k hk
    omega

theorem schedule_lt {M : ℕ → BitVec 32} {t : ℕ} (h : t < 16) : schedule M t = M t := by
  rw [schedule, if_pos h]

theorem schedule_ge {M : ℕ → BitVec 32} {t : ℕ} (h : 16 ≤ t) :
    schedule M t = smallSigma1 (schedule M (t - 2)) + schedule M (t - 7) +
      smallSigma0 (schedule M (t - 15)) + schedule M (t - 16) := by
  rw [schedule, if_neg (Nat.not_lt.mpr h)]

end JungeyOs.Fips180
