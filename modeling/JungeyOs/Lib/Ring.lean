import Mathlib.Data.BitVec
import Mathlib.Data.Nat.ModEq
import Mathlib.Tactic.Abel
import Mathlib.Tactic.Conv

/-!
# Rings with free-running indices

A ring has `N` slots and indices that run on: an index is a number of `w` bits, which wraps to
zero, and index `i` stands for slot `i mod N`. One side puts entries into the slots and advances
the index up to which they are there; the other takes them and advances its own.

Results, for `N` a divisor of `2 ^ w`:
* `between_put`: an entry that is written at the upper index and then published is the last one.
* `between_ahead`: writing beyond the upper index changes nothing that is there.
* `between_take`: advancing the lower index takes the first entry.
* `between_eq_nil_iff`: nothing is there exactly when the two indices are equal.
-/

namespace JungeyOs.Ring

variable {α : Type*} {w N : ℕ} {slots : ℕ → α} {i j : BitVec w} {k n : ℕ}

/-- The slot of the `k`-th entry from index `i` on. -/
def slot (N : ℕ) (i : BitVec w) (k : ℕ) : ℕ := (i.toNat + k) % N

/-- The `n` entries from index `i` on. -/
def window (N : ℕ) (slots : ℕ → α) (i : BitVec w) (n : ℕ) : List α :=
  (List.range n).map fun k => slots (slot N i k)

/-- How many entries there are between two indices. -/
def gap (i j : BitVec w) : ℕ := (j - i).toNat

/-- The entries between two indices. -/
def between (N : ℕ) (slots : ℕ → α) (i j : BitVec w) : List α := window N slots i (gap i j)

/-! ## Indices -/

theorem gap_eq_zero_iff : gap i j = 0 ↔ i = j := by
  rw [gap, ← BitVec.toNat_zero (w := w), BitVec.toNat_inj]
  exact sub_eq_zero.trans eq_comm

/-- The sum of a number and one wraps or does not. -/
theorem toNat_succ (a : BitVec w) :
    (a + 1#w).toNat = a.toNat + 1 ∨ a.toNat + 1 = 2 ^ w ∧ (a + 1#w).toNat = 0 := by
  have hlt := a.isLt
  rcases Nat.eq_zero_or_pos w with rfl | hw
  · exact .inr ⟨by omega, by omega⟩
  · have hone : (1#w).toNat = 1 := BitVec.toNat_one hw
    rw [BitVec.toNat_add, hone]
    rcases Nat.lt_or_eq_of_le hlt with hlt | heq
    · exact .inl (Nat.mod_eq_of_lt hlt)
    · exact .inr ⟨heq, by rw [← heq]; exact Nat.mod_self _⟩

theorem gap_succ (h : gap i j + 1 < 2 ^ w) : gap i (j + 1#w) = gap i j + 1 := by
  have hadd : j + 1#w - i = (j - i) + 1#w := by abel
  rw [gap, hadd]
  rcases toNat_succ (j - i) with hsucc | ⟨hwrap, -⟩
  · exact hsucc
  · rw [gap] at h
    omega

theorem gap_pred (h : i ≠ j) : gap i j = gap (i + 1#w) j + 1 := by
  have hadd : j - i = (j - (i + 1#w)) + 1#w := by abel
  rcases toNat_succ (j - (i + 1#w)) with hsucc | ⟨-, hzero⟩
  · rw [gap, hadd, hsucc, gap]
  · refine absurd (gap_eq_zero_iff.mp ?_) h
    rw [gap, hadd, hzero]

/-- Advancing the index by one moves all slots by one: the wrap to zero does not show. -/
theorem slot_succ (hN : N ∣ 2 ^ w) (i : BitVec w) (k : ℕ) :
    slot N (i + 1#w) k = slot N i (k + 1) := by
  rw [slot, slot]
  rcases toNat_succ i with hsucc | ⟨hwrap, hzero⟩
  · rw [hsucc]
    congr 1
    omega
  · obtain ⟨m, hm⟩ := hN
    have hsum : i.toNat + (k + 1) = k + N * m := by omega
    rw [hzero, hsum, Nat.add_mul_mod_self_left, Nat.zero_add]

/-- Fewer than `N` entries have slots of their own. -/
theorem slot_ne {m : ℕ} (hm : k < m) (hn : m < N) : slot N i k ≠ slot N i m := by
  intro h
  have := Nat.ModEq.add_left_cancel' i.toNat h
  rw [Nat.ModEq, Nat.mod_eq_of_lt (hm.trans hn), Nat.mod_eq_of_lt hn] at this
  omega

/-! ## Entries -/

@[simp] theorem length_window : (window N slots i n).length = n := by
  simp [window]

@[simp] theorem length_between : (between N slots i j).length = gap i j := length_window

theorem window_snoc : window N slots i (n + 1) = window N slots i n ++ [slots (slot N i n)] := by
  simp [window, List.range_succ]

theorem window_cons (hN : N ∣ 2 ^ w) :
    window N slots i (n + 1) = slots (slot N i 0) :: window N slots (i + 1#w) n := by
  simp [window, List.range_succ_eq_map, Function.comp_def, slot_succ hN]

/-- Writing ahead changes no entry. -/
theorem window_ahead {m : ℕ} (hn : n ≤ m) (hm : m < N) (v : α) :
    window N (Function.update slots (slot N i m) v) i n = window N slots i n := by
  refine List.map_congr_left fun k hk => ?_
  have hk := List.mem_range.mp hk
  exact Function.update_of_ne (slot_ne (by omega) hm) ..

theorem window_put (hn : n < N) (v : α) :
    window N (Function.update slots (slot N i n) v) i (n + 1) = window N slots i n ++ [v] := by
  rw [window_snoc, window_ahead le_rfl hn, Function.update_self]

/-- The slots beyond the upper index are those beyond all entries. -/
theorem slot_gap (hN : N ∣ 2 ^ w) (i j : BitVec w) (k : ℕ) : slot N j k = slot N i (gap i j + k) := by
  have hj : j = i + (j - i) := by abel
  conv_lhs => rw [hj]
  rw [slot, slot, gap, BitVec.toNat_add, Nat.add_mod, Nat.mod_mod_of_dvd _ hN, ← Nat.add_mod]
  congr 1
  omega

theorem between_eq_nil_iff : between N slots i j = [] ↔ i = j := by
  rw [← List.length_eq_zero_iff, length_between, gap_eq_zero_iff]

@[simp] theorem between_self : between N slots i i = [] := between_eq_nil_iff.mpr rfl

theorem between_ahead (hN : N ∣ 2 ^ w) (h : gap i j + k < N) (v : α) :
    between N (Function.update slots (slot N j k) v) i j = between N slots i j := by
  rw [slot_gap hN i j]
  exact window_ahead (by omega) h v

/-- Advancing the upper index publishes the entry there. -/
theorem between_publish (hN : N ∣ 2 ^ w) (h : gap i j + 1 < 2 ^ w) :
    between N slots i (j + 1#w) = between N slots i j ++ [slots (slot N j 0)] := by
  rw [between, gap_succ h, window_snoc, slot_gap hN i j]
  rfl

theorem between_put (hN : N ∣ 2 ^ w) (hlt : N < 2 ^ w) (h : gap i j < N) (v : α) :
    between N (Function.update slots (slot N j 0) v) i (j + 1#w) = between N slots i j ++ [v] := by
  rw [between_publish hN (by omega), between_ahead hN (by omega), Function.update_self]

theorem between_take (hN : N ∣ 2 ^ w) (h : i ≠ j) :
    between N slots i j = slots (slot N i 0) :: between N slots (i + 1#w) j := by
  rw [between, gap_pred h, window_cons hN]
  rfl

end JungeyOs.Ring
