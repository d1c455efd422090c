import Mathlib.Data.List.Basic
import Mathlib.Tactic.Ring

/-!
# Fixed-size byte blocks

Byte arrays of a known size are `Vector UInt8 n`. A format that is written out
by hand puts little-endian numbers and byte strings at fixed offsets of such a
block; the reader takes them out again at the same offsets.

Results:
* `slice_blit_self`: what was put at an offset is read back from it.
* `slice_blit_of_disjoint`: a range that the write does not overlap is unchanged.
* `ext_of_slices`: a block is determined by its consecutive pieces.
* `takeWhile_padded`: a text without NUL bytes is read back from a padded field.
* `ofLE_leBytes`: the little-endian bytes of a number that fits give it back, and so do (`ofBE_beList`)
  the big-endian ones.
-/

namespace JungeyOs.Bytes

variable {n m len : ℕ}

/-- `&b[at..at + len]` as an array. Every use is within bounds; bytes past the
end read as 0. -/
def slice (b : Vector UInt8 n) (pos len : ℕ) : Vector UInt8 len :=
  Vector.ofFn fun k => b[pos + k.val]?.getD 0

/-- `b[at..at + m].copy_from_slice(src)`. -/
def blit (b : Vector UInt8 n) (pos : ℕ) (src : Vector UInt8 m) : Vector UInt8 n :=
  Vector.ofFn fun i => if pos ≤ i.val then src[i.val - pos]?.getD b[i] else b[i]

theorem getElem_slice (b : Vector UInt8 n) (pos : ℕ) {k : ℕ} (hk : k < len) :
    (slice b pos len)[k] = b[pos + k]?.getD 0 := by
  simp [slice]

theorem getElem_blit (b : Vector UInt8 n) (pos : ℕ) (src : Vector UInt8 m) {i : ℕ} (hi : i < n) :
    (blit b pos src)[i] = if pos ≤ i then src[i - pos]?.getD b[i] else b[i] := by
  simp [blit]

/-- A range within the block is a part of its list. -/
theorem toList_slice (b : Vector UInt8 n) {pos : ℕ} (h : pos + len ≤ n) :
    (slice b pos len).toList = (b.toList.drop pos).take len := by
  apply List.ext_getElem
  · rw [Vector.length_toList, List.length_take, List.length_drop, Vector.length_toList]
    omega
  · intro i hi _
    have hlt : i < len := by rwa [Vector.length_toList] at hi
    rw [Vector.getElem_toList, getElem_slice _ _ hlt, Vector.getElem?_eq_getElem (by omega),
      Option.getD_some, List.getElem_take, List.getElem_drop, Vector.getElem_toList]

/-- What was put at an offset is read back from it. -/
theorem slice_blit_self (b : Vector UInt8 n) (pos : ℕ) (src : Vector UInt8 m) (h : pos + m ≤ n) :
    slice (blit b pos src) pos m = src := by
  ext k hk
  have hlt : pos + k < n := by omega
  rw [getElem_slice _ _ hk, Vector.getElem?_eq_getElem hlt, Option.getD_some, getElem_blit _ _ _ hlt]
  simp [hk]

/-- A range that the write does not overlap is unchanged. -/
theorem slice_blit_of_disjoint (b : Vector UInt8 n) (pos pos' : ℕ) (src : Vector UInt8 m)
    (h : pos + len ≤ pos' ∨ pos' + m ≤ pos) :
    slice (blit b pos' src) pos len = slice b pos len := by
  ext k hk
  rw [getElem_slice _ _ hk, getElem_slice _ _ hk]
  by_cases hlt : pos + k < n
  · rw [Vector.getElem?_eq_getElem hlt, Vector.getElem?_eq_getElem hlt, getElem_blit _ _ _ hlt]
    split_ifs with hle
    · have hout : m ≤ pos + k - pos' := by omega
      simp [Vector.getElem?_eq_none hout]
    · rfl
  · rw [Vector.getElem?_eq_none (by omega), Vector.getElem?_eq_none (by omega)]

/-- A range of a range. -/
theorem slice_slice (b : Vector UInt8 n) {pos pos' len' : ℕ} (h : pos' + len' ≤ len) :
    slice (slice b pos len) pos' len' = slice b (pos + pos') len' := by
  ext k hk
  have hlt : pos' + k < len := by omega
  rw [getElem_slice _ _ hk, getElem_slice _ _ hk, Vector.getElem?_eq_getElem hlt, Option.getD_some,
    getElem_slice _ _ hlt, Nat.add_assoc]

/-- A write inside a range is a write to the range. -/
theorem slice_blit_inside (b : Vector UInt8 n) (pos : ℕ) {pos' : ℕ} (src : Vector UInt8 m)
    (h : pos + len ≤ n) :
    slice (blit b (pos + pos') src) pos len = blit (slice b pos len) pos' src := by
  ext k hk
  have hlt : pos + k < n := by omega
  rw [getElem_slice _ _ hk, Vector.getElem?_eq_getElem hlt, Option.getD_some, getElem_blit _ _ _ hlt,
    getElem_blit _ _ _ hk, getElem_slice _ _ hk, Vector.getElem?_eq_getElem hlt, Option.getD_some,
    Nat.add_sub_add_left]
  simp

/-- A write of one byte. -/
theorem blit_singleton (b : Vector UInt8 n) (pos : ℕ) (v : UInt8) :
    blit b pos #v[v] = b.setIfInBounds pos v := by
  ext k hk
  rw [getElem_blit _ _ _ hk, Vector.getElem_setIfInBounds hk]
  rcases Nat.lt_trichotomy pos k with hlt | rfl | hgt
  · rw [if_pos hlt.le, if_neg hlt.ne, Vector.getElem?_eq_none (by omega), Option.getD_none]
  · rw [if_pos le_rfl, if_pos rfl, Nat.sub_self]
    rfl
  · rw [if_neg (by omega), if_neg hgt.ne']

/-- Two blocks are equal when their consecutive pieces of `m` bytes are. -/
theorem ext_of_slices {a b : Vector UInt8 n} {k : ℕ} (hn : n ≤ k * m)
    (h : ∀ s < k, slice a (s * m) m = slice b (s * m) m) : a = b := by
  refine Vector.ext fun i hi => ?_
  have hm : 0 < m := Nat.pos_of_ne_zero fun h0 => by simp [h0] at hn; omega
  have hs : i / m < k := (Nat.div_lt_iff_lt_mul hm).mpr (by omega)
  have hk : i % m < m := Nat.mod_lt _ hm
  have hi' : i / m * m + i % m = i := Nat.div_add_mod' i m
  have hpiece : (slice a (i / m * m) m)[i % m] = (slice b (i / m * m) m)[i % m] := by
    rw [h _ hs]
  rw [getElem_slice _ _ hk, getElem_slice _ _ hk] at hpiece
  simpa only [hi', Vector.getElem?_eq_getElem hi, Option.getD_some] using hpiece

/-! ## Padded texts -/

/-- A text at the start of a field of `len` zeros; what does not fit is cut off. -/
def padded (len : ℕ) (text : List UInt8) : Vector UInt8 len :=
  Vector.ofFn fun k => text[k.val]?.getD 0

theorem getElem_padded (text : List UInt8) {k : ℕ} (hk : k < len) :
    (padded len text)[k] = text[k]?.getD 0 := by
  simp [padded]

theorem padded_take (len : ℕ) (text : List UInt8) : padded len (text.take len) = padded len text := by
  ext k hk
  rw [getElem_padded _ hk, getElem_padded _ hk, List.getElem?_take_of_lt hk]

/-- The bytes before the first NUL of a padded text without one are the text. -/
theorem takeWhile_padded {text : List UInt8} (hlen : text.length ≤ len) (hnul : 0 ∉ text) :
    (padded len text).toList.takeWhile (· ≠ 0) = text := by
  have hfield : (padded len text).toList = text ++ List.replicate (len - text.length) 0 := by
    refine List.ext_getElem (by simp; omega) fun i h1 h2 => ?_
    rw [Vector.length_toList] at h1
    rw [Vector.getElem_toList, getElem_padded _ h1]
    rcases lt_or_ge i text.length with hi | hi
    · rw [List.getElem_append_left hi, List.getElem?_eq_getElem hi, Option.getD_some]
    · rw [List.getElem_append_right hi, List.getElem?_eq_none hi, List.getElem_replicate,
        Option.getD_none]
  rw [hfield, List.takeWhile_append_of_pos fun b hb => ?_]
  · cases len - text.length <;> simp [List.replicate_succ]
  · simp only [decide_eq_true_eq]
    rintro rfl
    exact hnul hb

/-- A text that is put into a field of zeros pads it. -/
theorem blit_padded {b : Vector UInt8 n} {pos : ℕ} (src : Vector UInt8 m) (hm : m ≤ len)
    (hzero : slice b pos len = Vector.replicate len 0) :
    blit b pos src = blit b pos (padded len src.toList) := by
  ext i hi
  rw [getElem_blit _ _ _ hi, getElem_blit _ _ _ hi]
  split_ifs with hle
  · rcases lt_or_ge (i - pos) len with hk | hk
    · -- inside the field what is not written is zero
      have hb : b[i] = 0 := by
        have hget := congrArg (fun v : Vector UInt8 len => v[i - pos]) hzero
        have hpos : pos + (i - pos) = i := by omega
        simpa [getElem_slice _ _ hk, hpos, Vector.getElem?_eq_getElem hi] using hget
      rw [hb, Vector.getElem?_eq_getElem hk, Option.getD_some, getElem_padded _ hk,
        Vector.getElem?_toList]
    · rw [Vector.getElem?_eq_none (by omega), Vector.getElem?_eq_none hk]
  · rfl

/-! ## Little-endian numbers -/

/-- The number whose little-endian bytes are `l`. -/
def ofLE : List UInt8 → ℕ
  | [] => 0
  | b :: l => b.toNat + 256 * ofLE l

/-- The `len` little-endian bytes of `v`. -/
def leList : (len v : ℕ) → List UInt8
  | 0, _ => []
  | len + 1, v => UInt8.ofNat v :: leList len (v / 256)

@[simp] theorem length_leList (len v : ℕ) : (leList len v).length = len := by
  induction len generalizing v with
  | zero => rfl
  | succ len ih => simp [leList, ih]

theorem ofLE_leList (len : ℕ) : ∀ v, v < 256 ^ len → ofLE (leList len v) = v := by
  induction len with
  | zero => intro v hv; simp [leList, ofLE] at *; omega
  | succ len ih =>
    intro v hv
    have hdiv : v / 256 < 256 ^ len := by
      rw [pow_succ] at hv
      omega
    rw [leList, ofLE, ih _ hdiv]
    simp
    omega

/-- `v.to_le_bytes()`. -/
def leBytes (len v : ℕ) : Vector UInt8 len := ⟨(leList len v).toArray, by simp⟩

theorem ofLE_lt (l : List UInt8) : ofLE l < 256 ^ l.length := by
  induction l with
  | nil => simp [ofLE]
  | cons b l ih =>
    have hb : b.toNat < 256 := b.toNat_lt
    rw [ofLE, List.length_cons, pow_succ]
    omega

/-- Byte strings of one length with the same number are the same. -/
theorem ofLE_inj : ∀ {l l' : List UInt8}, l.length = l'.length → ofLE l = ofLE l' → l = l'
  | [], [], _, _ => rfl
  | b :: l, b' :: l', hlen, h => by
    have hb : b.toNat < 256 := b.toNat_lt
    have hb' : b'.toNat < 256 := b'.toNat_lt
    rw [ofLE, ofLE] at h
    rw [UInt8.toNat_inj.mp (by omega : b.toNat = b'.toNat),
      ofLE_inj (Nat.succ.inj hlen) (by omega)]

/-- Bytes are the digits of their number. -/
theorem leList_ofLE (l : List UInt8) : leList l.length (ofLE l) = l :=
  ofLE_inj (length_leList _ _) (ofLE_leList _ _ (ofLE_lt l))

theorem ofLE_leBytes {len v : ℕ} (h : v < 256 ^ len) : ofLE (leBytes len v).toList = v := by
  simp [leBytes, Vector.toList, ofLE_leList len v h]

theorem ofLE_append (l l' : List UInt8) : ofLE (l ++ l') = ofLE l + 256 ^ l.length * ofLE l' := by
  induction l with
  | nil => rw [List.nil_append, ofLE, List.length_nil, pow_zero, Nat.one_mul, Nat.zero_add]
  | cons b l ih =>
    rw [List.cons_append, ofLE, ofLE, ih, List.length_cons, pow_succ']
    ring

/-! ## Big-endian numbers -/

/-- The number whose big-endian bytes are `l`. -/
def ofBE (l : List UInt8) : ℕ := ofLE l.reverse

/-- The `len` big-endian bytes of `v`. -/
def beList (len v : ℕ) : List UInt8 := (leList len v).reverse

@[simp] theorem length_beList (len v : ℕ) : (beList len v).length = len := by
  rw [beList, List.length_reverse, length_leList]

theorem ofBE_beList {len v : ℕ} (h : v < 256 ^ len) : ofBE (beList len v) = v := by
  rw [ofBE, beList, List.reverse_reverse, ofLE_leList len v h]

theorem ofBE_lt (l : List UInt8) : ofBE l < 256 ^ l.length := by
  rw [ofBE, ← List.length_reverse]
  exact ofLE_lt l.reverse

theorem ofBE_append (l l' : List UInt8) : ofBE (l ++ l') = ofBE l * 256 ^ l'.length + ofBE l' := by
  rw [ofBE, List.reverse_append, ofLE_append, List.length_reverse, ← ofBE, ← ofBE]
  ring

end JungeyOs.Bytes
