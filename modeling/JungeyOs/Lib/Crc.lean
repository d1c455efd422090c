import Mathlib.Algebra.CharP.Two
import Mathlib.Algebra.Polynomial.Div
import Mathlib.Algebra.Polynomial.FieldDivision
import Mathlib.Algebra.Field.ZMod
import Mathlib.RingTheory.PrincipalIdealDomain
import Mathlib.Tactic.LinearCombination

/-!
# Cyclic redundancy checks

A string of bits is a polynomial over the field of two elements, whose first bit has the highest
power. A reflected check keeps a register of `w` bits, least significant bit first, and divides
by a generator of degree `w` one bit at a time.

Results:
* `reg_foldl_feed`: the register after any number of words is the remainder of what it held and of
  the words.
* `not_dvd_of_burst`: a generator with a constant term divides no change of at most `w` bits in a
  row.
-/

namespace JungeyOs.Crc

open Polynomial

/-! ## Strings of bits -/

/-- A bit as an element of the field. -/
def bit (b : Bool) : ZMod 2 := if b then 1 else 0

/-- The first bit has the highest power. -/
noncomputable def ofBits : List Bool → (ZMod 2)[X]
  | [] => 0
  | b :: l => C (bit b) * X ^ l.length + ofBits l

/-- The `w` low bits of a number, least significant first. -/
def lsb (w n : ℕ) : List Bool := (List.range w).map n.testBit

section

variable {a b l : List Bool} {w k n m i : ℕ}

theorem bit_xor (x y : Bool) : bit (x ^^ y) = bit x + bit y := by
  cases x <;> cases y <;> rfl

theorem bit_inj {x y : Bool} (h : bit x = bit y) : x = y := by
  revert h
  cases x <;> cases y <;> decide

theorem add_self (p : (ZMod 2)[X]) : p + p = 0 := CharTwo.add_self_eq_zero p

theorem ofBits_append (a b : List Bool) :
    ofBits (a ++ b) = ofBits a * X ^ b.length + ofBits b := by
  induction a with
  | nil => rw [List.nil_append, ofBits, zero_mul, zero_add]
  | cons x a ih =>
    rw [List.cons_append, ofBits, ih, ofBits, List.length_append, pow_add]
    ring

theorem ofBits_singleton (x : Bool) : ofBits [x] = C (bit x) := by
  rw [ofBits, ofBits, List.length_nil, pow_zero, mul_one, add_zero]

theorem ofBits_of_forall_false (h : ∀ x ∈ l, x = false) : ofBits l = 0 := by
  induction l with
  | nil => rfl
  | cons x l ih =>
    obtain rfl := h x List.mem_cons_self
    rw [ofBits, ih fun y hy => h y (List.mem_cons_of_mem _ hy), add_zero]
    simp [bit]

/-- The coefficients are the bits, from the last to the first. -/
theorem coeff_ofBits (l : List Bool) (k : ℕ) :
    (ofBits l).coeff k = bit (l.reverse[k]?.getD false) := by
  induction l with
  | nil => simp [ofBits, bit]
  | cons x l ih =>
    rw [ofBits, coeff_add, coeff_C_mul_X_pow, ih, List.reverse_cons]
    have hlen : l.reverse.length = l.length := List.length_reverse
    rcases Nat.lt_trichotomy k l.length with hk | rfl | hk
    · rw [if_neg hk.ne, zero_add, List.getElem?_append_left (by omega)]
    · rw [if_pos rfl, List.getElem?_eq_none hlen.le, ← hlen, List.getElem?_concat_length]
      simp [bit]
    · have hlast : (l.reverse ++ [x]).length ≤ k := by
        rw [List.length_append, List.length_singleton]
        omega
      rw [if_neg hk.ne', zero_add, List.getElem?_eq_none (by omega), List.getElem?_eq_none hlast]

theorem degree_ofBits_lt (l : List Bool) : (ofBits l).degree < l.length := by
  refine (degree_lt_iff_coeff_zero _ _).mpr fun k hk => ?_
  rw [coeff_ofBits, List.getElem?_eq_none (by rwa [List.length_reverse])]
  rfl

/-- Strings of one length are told apart. -/
theorem ofBits_inj (hlen : a.length = b.length) (h : ofBits a = ofBits b) : a = b := by
  refine List.reverse_injective (List.ext_getElem (by simpa using hlen) fun k ha hb => ?_)
  have hk := congrArg (Polynomial.coeff · k) h
  simp only [coeff_ofBits, List.getElem?_eq_getElem ha, List.getElem?_eq_getElem hb,
    Option.getD_some] at hk
  exact bit_inj hk

theorem ofBits_zipWith_xor (hlen : a.length = b.length) :
    ofBits (List.zipWith xor a b) = ofBits a + ofBits b := by
  induction a generalizing b with
  | nil =>
    obtain rfl := List.eq_nil_of_length_eq_zero hlen.symm
    exact (add_zero _).symm
  | cons x a ih =>
    cases b with
    | nil => cases hlen
    | cons y b =>
      have hlen' : a.length = b.length := Nat.succ.inj hlen
      have hzip : (List.zipWith xor a b).length = b.length := by
        rw [List.length_zipWith, hlen', Nat.min_self]
      rw [List.zipWith_cons_cons, ofBits, ih hlen', ofBits, ofBits, hzip, hlen', bit_xor, C_add]
      ring

@[simp] theorem length_lsb (w n : ℕ) : (lsb w n).length = w := by simp [lsb]

theorem lsb_succ (w n : ℕ) : lsb (w + 1) n = n.testBit 0 :: lsb w (n / 2) := by
  unfold lsb
  rw [List.range_succ_eq_map, List.map_cons, List.map_map]
  refine congrArg _ (List.map_congr_left fun i _ => ?_)
  exact Nat.testBit_succ n i

theorem lsb_concat (w n : ℕ) : lsb (w + 1) n = lsb w n ++ [n.testBit w] := by
  unfold lsb
  rw [List.range_succ, List.map_append, List.map_singleton]

/-- The bits of two numbers, the low one in `k` bits. -/
theorem lsb_add (hm : m < 2 ^ k) (w : ℕ) : lsb (k + w) (m + 2 ^ k * n) = lsb k m ++ lsb w n := by
  refine List.ext_getElem (by simp) fun i hi _ => ?_
  rw [length_lsb] at hi
  rw [List.getElem_append]
  simp only [lsb, List.getElem_map, List.getElem_range, List.length_map, List.length_range]
  have hbit : (m + 2 ^ k * n).testBit i = if i < k then m.testBit i else n.testBit (i - k) := by
    rw [Nat.add_comm]
    exact Nat.testBit_two_pow_mul_add n hm i
  rw [hbit]
  split_ifs <;> rfl

theorem ofBits_lsb_xor (w m n : ℕ) :
    ofBits (lsb w (m ^^^ n)) = ofBits (lsb w m) + ofBits (lsb w n) := by
  induction w with
  | zero => exact (add_zero _).symm
  | succ w ih =>
    simp only [lsb_concat, ofBits_append, ofBits_singleton, ih, Nat.testBit_xor, bit_xor, C_add,
      List.length_singleton]
    ring

end

/-! ## The register -/

/-- One bit is divided away; `poly` is the generator without its leading term. -/
def shift (poly n : ℕ) : ℕ := (n >>> 1) ^^^ if n.testBit 0 then poly else 0

/-- One word of `k` bits is taken in. -/
def feed (poly k n word : ℕ) : ℕ := (shift poly)^[k] (n ^^^ word)

/-- The register as a polynomial. -/
noncomputable def reg (w n : ℕ) : (ZMod 2)[X] := ofBits (lsb w n)

/-- The generator. -/
noncomputable def gen (w poly : ℕ) : (ZMod 2)[X] := X ^ w + reg w poly

/-- The bits of words of `k` bits. -/
def bitsOf (k : ℕ) (words : List ℕ) : List Bool := words.flatMap (lsb k)

section

variable {w k n m poly word : ℕ} {words : List ℕ}

theorem degree_reg_lt (w n : ℕ) : (reg w n).degree < w := by
  have hlt := degree_ofBits_lt (lsb w n)
  rwa [length_lsb] at hlt

/-- Bit `i` is the coefficient of the power that lies `i` below the highest. -/
theorem coeff_reg {i : ℕ} (hi : i < w) : (reg w n).coeff (w - 1 - i) = bit (n.testBit i) := by
  have hlen : w - 1 - i < (lsb w n).length := by
    rw [length_lsb]
    omega
  rw [reg, coeff_ofBits, List.getElem?_reverse hlen, length_lsb,
    show w - 1 - (w - 1 - i) = i by omega]
  simp [lsb, hi]

theorem degree_gen (w poly : ℕ) : (gen w poly).degree = w := by
  rw [gen, degree_add_eq_left_of_degree_lt, degree_X_pow]
  rw [degree_X_pow]
  exact degree_reg_lt w poly

theorem monic_gen (w poly : ℕ) : (gen w poly).Monic := monic_X_pow_add (degree_reg_lt w poly)

theorem reg_zero (w : ℕ) : reg w 0 = 0 := by
  refine ofBits_of_forall_false fun x hx => ?_
  obtain ⟨i, -, rfl⟩ := List.mem_map.mp hx
  exact Nat.zero_testBit i

/-- A register that takes in a word of fewer bits takes it in at the high powers. -/
theorem reg_of_lt (hk : k ≤ w) (hword : word < 2 ^ k) :
    reg w word = ofBits (lsb k word) * X ^ (w - k) := by
  have hsplit := lsb_add (n := 0) hword (w - k)
  rw [Nat.add_sub_cancel' hk, Nat.mul_zero, Nat.add_zero] at hsplit
  have hzero : ofBits (lsb (w - k) 0) = 0 := reg_zero (w - k)
  rw [reg, hsplit, ofBits_append, hzero, length_lsb, add_zero]

theorem shift_lt (hpoly : poly < 2 ^ w) (hn : n < 2 ^ w) : shift poly n < 2 ^ w := by
  refine Nat.xor_lt_two_pow ((Nat.shiftRight_le n 1).trans_lt hn) ?_
  split_ifs
  · exact hpoly
  · exact Nat.two_pow_pos w

/-- A shift multiplies by `X` and takes away the generator where the degree becomes `w`. -/
theorem X_mul_reg (hn : n < 2 ^ w) (hw : 0 < w) :
    X * reg w n = reg w (shift poly n) + C (bit (n.testBit 0)) * gen w poly := by
  obtain ⟨w, rfl⟩ := Nat.exists_eq_succ_of_ne_zero hw.ne'
  have hhalf : reg (w + 1) (n >>> 1) = ofBits (lsb w (n / 2)) * X := by
    have htop : (n / 2).testBit w = false := by
      refine Nat.testBit_lt_two_pow ?_
      rw [Nat.pow_succ] at hn
      omega
    rw [reg, Nat.shiftRight_one, lsb_concat, ofBits_append, htop, List.length_singleton, pow_one]
    simp [ofBits, bit]
  have hout : reg (w + 1) n = C (bit (n.testBit 0)) * X ^ w + ofBits (lsb w (n / 2)) := by
    rw [reg, lsb_succ, ofBits, length_lsb]
  have hshift : reg (w + 1) (shift poly n) =
      reg (w + 1) (n >>> 1) + C (bit (n.testBit 0)) * reg (w + 1) poly := by
    rw [shift, reg, ofBits_lsb_xor]
    refine congrArg _ ?_
    cases n.testBit 0 with
    | false => simpa [bit, reg] using reg_zero (w + 1)
    | true => simp [bit, reg]
  rw [hshift, hhalf, hout, gen, pow_succ]
  have hcancel := add_self (C (bit (n.testBit 0)) * reg (w + 1) poly)
  linear_combination -hcancel

theorem iterate_shift_lt (hpoly : poly < 2 ^ w) (hn : n < 2 ^ w) (k : ℕ) :
    (shift poly)^[k] n < 2 ^ w := by
  induction k with
  | zero => exact hn
  | succ k ih =>
    rw [Function.iterate_succ_apply']
    exact shift_lt hpoly ih

theorem dvd_iterate_shift (hpoly : poly < 2 ^ w) (hn : n < 2 ^ w) (hw : 0 < w) (k : ℕ) :
    gen w poly ∣ X ^ k * reg w n - reg w ((shift poly)^[k] n) := by
  induction k with
  | zero =>
    rw [pow_zero, one_mul, Function.iterate_zero_apply, sub_self]
    exact dvd_zero _
  | succ k ih =>
    have hstep : X * reg w ((shift poly)^[k] n) = reg w (shift poly ((shift poly)^[k] n)) +
        C (bit (((shift poly)^[k] n).testBit 0)) * gen w poly :=
      X_mul_reg (iterate_shift_lt hpoly hn k) hw
    rw [Function.iterate_succ_apply']
    have hsplit : X ^ (k + 1) * reg w n - reg w (shift poly ((shift poly)^[k] n)) =
        X * (X ^ k * reg w n - reg w ((shift poly)^[k] n)) +
          C (bit (((shift poly)^[k] n).testBit 0)) * gen w poly := by
      rw [pow_succ]
      linear_combination hstep
    rw [hsplit]
    exact dvd_add (ih.mul_left _) (dvd_mul_left _ _)

/-- A word moves the register up and comes in below. -/
theorem dvd_feed (hpoly : poly < 2 ^ w) (hn : n < 2 ^ w) (hw : 0 < w) (hk : k ≤ w)
    (hword : word < 2 ^ k) :
    gen w poly ∣ X ^ k * reg w n + X ^ w * ofBits (lsb k word) - reg w (feed poly k n word) := by
  have hin : n ^^^ word < 2 ^ w :=
    Nat.xor_lt_two_pow hn (hword.trans_le (Nat.pow_le_pow_right (by omega) hk))
  have hdvd := dvd_iterate_shift hpoly hin hw k
  have hxor : X ^ k * reg w (n ^^^ word) = X ^ k * reg w n + X ^ w * ofBits (lsb k word) := by
    have hpow : (X : (ZMod 2)[X]) ^ w = X ^ k * X ^ (w - k) := by
      rw [← pow_add, Nat.add_sub_cancel' hk]
    rw [reg, ofBits_lsb_xor]
    show X ^ k * (reg w n + reg w word) = _
    rw [reg_of_lt hk hword, hpow]
    ring
  rwa [hxor] at hdvd

theorem feed_lt (hpoly : poly < 2 ^ w) (hn : n < 2 ^ w) (hk : k ≤ w) (hword : word < 2 ^ k) :
    feed poly k n word < 2 ^ w :=
  iterate_shift_lt hpoly
    (Nat.xor_lt_two_pow hn (hword.trans_le (Nat.pow_le_pow_right (by omega) hk))) k

theorem length_bitsOf (k : ℕ) (words : List ℕ) : (bitsOf k words).length = k * words.length := by
  induction words with
  | nil => rfl
  | cons x words ih =>
    rw [bitsOf, List.flatMap_cons, List.length_append, length_lsb, List.length_cons]
    rw [bitsOf] at ih
    rw [ih]
    ring

theorem dvd_foldl_feed (hpoly : poly < 2 ^ w) (hn : n < 2 ^ w) (hw : 0 < w) (hk : k ≤ w)
    (hwords : ∀ x ∈ words, x < 2 ^ k) :
    gen w poly ∣ X ^ (k * words.length) * reg w n + X ^ w * ofBits (bitsOf k words) -
      reg w (words.foldl (feed poly k) n) := by
  induction words generalizing n with
  | nil => simp [bitsOf, ofBits]
  | cons x words ih =>
    have hx := hwords x List.mem_cons_self
    have hrest := ih (feed_lt hpoly hn hk hx) fun y hy => hwords y (List.mem_cons_of_mem _ hy)
    have hword := (dvd_feed hpoly hn hw hk hx).mul_left (X ^ (k * words.length))
    have hbits : ofBits (bitsOf k (x :: words)) =
        ofBits (lsb k x) * X ^ (k * words.length) + ofBits (bitsOf k words) := by
      rw [← length_bitsOf, ← ofBits_append]
      rfl
    have hsum := dvd_add hrest hword
    rw [List.foldl_cons, hbits, List.length_cons, Nat.mul_succ, pow_add]
    refine (congrArg (gen w poly ∣ ·) ?_).mp hsum
    ring

/-- The register after any number of words. -/
theorem reg_foldl_feed (hpoly : poly < 2 ^ w) (hn : n < 2 ^ w) (hw : 0 < w) (hk : k ≤ w)
    (hwords : ∀ x ∈ words, x < 2 ^ k) : reg w (words.foldl (feed poly k) n) =
      (X ^ (k * words.length) * reg w n + X ^ w * ofBits (bitsOf k words)) %ₘ gen w poly := by
  have hmod := modByMonic_eq_of_dvd_sub (monic_gen w poly) (dvd_foldl_feed hpoly hn hw hk hwords)
  rw [hmod]
  refine ((modByMonic_eq_self_iff (monic_gen w poly)).mpr ?_).symm
  rw [degree_gen]
  exact degree_reg_lt w _

end

/-! ## Bursts -/

section

variable {G : (ZMod 2)[X]} {a b : List Bool} {w k : ℕ}

/-- A generator with a constant term divides no multiple of a power of `X` that it does not divide
without. -/
theorem not_dvd_X_pow_mul {B : (ZMod 2)[X]} (hG : G.coeff 0 ≠ 0) (hB : B ≠ 0)
    (hdeg : B.degree < G.degree) (m : ℕ) : ¬G ∣ B * X ^ m := by
  intro hdvd
  have hX : Irreducible (X : (ZMod 2)[X]) := irreducible_X
  have hcoprime : IsCoprime G (X ^ m) := by
    refine (IsCoprime.pow_left ?_).symm
    exact hX.coprime_iff_not_dvd.mpr fun hdvd => hG (X_dvd_iff.mp hdvd)
  exact hB (eq_zero_of_dvd_of_degree_lt (hcoprime.dvd_of_dvd_mul_right hdvd) hdeg)

/-- A generator of degree `w` with a constant term divides no change of at most `w` bits in a row. -/
theorem not_dvd_of_burst (hG : G.coeff 0 ≠ 0) (hdeg : G.degree = w) (hlen : a.length = b.length)
    (hne : a ≠ b) (hout : ∀ i, a[i]? ≠ b[i]? → k ≤ i ∧ i < k + w) : ¬G ∣ ofBits a + ofBits b := by
  rw [← ofBits_zipWith_xor hlen]
  set E := List.zipWith xor a b with hE
  have hlenE : E.length = a.length := by rw [hE, List.length_zipWith, ← hlen, Nat.min_self]
  have hout' : ∀ i (hi : i < E.length), ¬(k ≤ i ∧ i < k + w) → E[i] = false := by
    intro i hi hnot
    have ha : i < a.length := hlenE ▸ hi
    have hget : a[i]? = b[i]? := not_not.mp fun hab => hnot (hout i hab)
    rw [List.getElem?_eq_getElem ha, List.getElem?_eq_getElem (hlen ▸ ha)] at hget
    simp only [hE, List.getElem_zipWith, Option.some.inj hget, Bool.xor_self]
  have hsplit : E = E.take k ++ ((E.drop k).take w ++ (E.drop k).drop w) := by
    rw [List.take_append_drop, List.take_append_drop]
  have hlow : ofBits (E.take k) = 0 := by
    refine ofBits_of_forall_false fun x hx => ?_
    obtain ⟨i, hi, rfl⟩ := List.mem_iff_getElem.mp hx
    rw [List.length_take] at hi
    rw [List.getElem_take]
    exact hout' i (by omega) (by omega)
  have hhigh : ofBits ((E.drop k).drop w) = 0 := by
    refine ofBits_of_forall_false fun x hx => ?_
    obtain ⟨i, hi, rfl⟩ := List.mem_iff_getElem.mp hx
    rw [List.length_drop, List.length_drop] at hi
    rw [List.getElem_drop, List.getElem_drop]
    exact hout' _ (by omega) (by omega)
  have hburst : ofBits E = ofBits ((E.drop k).take w) * X ^ ((E.drop k).drop w).length := by
    conv_lhs => rw [hsplit]
    rw [ofBits_append, ofBits_append, hlow, hhigh, zero_mul, zero_add, add_zero]
  have hzero : ofBits E ≠ 0 := by
    intro h0
    rw [hE, ofBits_zipWith_xor hlen] at h0
    refine hne (ofBits_inj hlen ?_)
    calc ofBits a = ofBits a + (ofBits b + ofBits b) := by rw [add_self, add_zero]
      _ = ofBits b := by rw [← add_assoc, h0, zero_add]
  rw [hburst]
  refine not_dvd_X_pow_mul hG (fun h0 => hzero ?_) ?_ _
  · rw [hburst, h0, zero_mul]
  · refine (degree_ofBits_lt _).trans_le ?_
    rw [hdeg]
    exact_mod_cast List.length_take_le _ _

end

end JungeyOs.Crc
