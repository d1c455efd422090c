import Mathlib.Data.List.Basic
import Mathlib.Data.Nat.Notation
import Mathlib.Tactic.SplitIfs

/-!
# Taking turns

A scan goes round a table of `n` places: it starts behind the place where the last one ended
and ends at the first place that qualifies. The table may grow between two scans.

Results:
* `scan_spec`: a scan ends at the first place that qualifies.
* `scan_eq_or_ahead_lt`: a scan for which place `t` qualifies ends there or comes closer to it.
* `ahead_le_of_le`: the distance to `t` is bounded by the final size of the table.
-/

namespace JungeyOs.RoundRobin

variable {n cursor t : ℕ} {p : ℕ → Bool}

/-- The first place that qualifies, from the place behind `cursor` on. -/
def scan (n cursor : ℕ) (p : ℕ → Bool) : Option ℕ :=
  ((List.range' 1 n).find? fun step => p ((cursor + step) % n)).map fun step => (cursor + step) % n

/-- How many places the scan goes on from `cursor` until it comes to `t`. -/
def ahead (n cursor t : ℕ) : ℕ := if cursor < t then t - cursor else n - cursor + t

theorem ahead_pos (hc : cursor < n) : 0 < ahead n cursor t := by
  rw [ahead]
  split_ifs <;> omega

theorem ahead_le (hc : cursor < n) (ht : t < n) : ahead n cursor t ≤ n := by
  rw [ahead]
  split_ifs <;> omega

/-- The distance in a table that has grown. -/
theorem ahead_mono {m : ℕ} (h : n ≤ m) : ahead n cursor t ≤ ahead m cursor t := by
  rw [ahead, ahead]
  split_ifs <;> omega

theorem ahead_spec (hc : cursor < n) (ht : t < n) : (cursor + ahead n cursor t) % n = t := by
  rw [ahead]
  split_ifs with h
  · rw [Nat.add_sub_cancel' (Nat.le_of_lt h), Nat.mod_eq_of_lt ht]
  · rw [← Nat.add_assoc, Nat.add_sub_cancel' (Nat.le_of_lt hc), Nat.add_mod_left, Nat.mod_eq_of_lt ht]

/-- Going on before `t` is reached: the rest of the way is shorter, also in a larger table. -/
theorem ahead_step {m step : ℕ} (hm : n ≤ m) (hc : cursor < n) (ht : t < n) (hpos : 0 < step)
    (hlt : step < ahead n cursor t) : ahead m ((cursor + step) % n) t < ahead m cursor t := by
  rw [ahead] at hlt
  rcases Nat.lt_or_ge (cursor + step) n with hin | hout
  · rw [Nat.mod_eq_of_lt hin, ahead, ahead]
    split_ifs at hlt ⊢ <;> omega
  · have hwrap : (cursor + step) % n = cursor + step - n := by
      rw [Nat.mod_eq_sub_mod hout, Nat.mod_eq_of_lt]
      split_ifs at hlt <;> omega
    rw [hwrap, ahead, ahead]
    split_ifs at hlt ⊢ <;> omega

theorem scan_spec {i : ℕ} (h : scan n cursor p = some i) :
    ∃ step, 0 < step ∧ step ≤ n ∧ i = (cursor + step) % n ∧ p i = true ∧
      ∀ k, 0 < k → k < step → p ((cursor + k) % n) = false := by
  obtain ⟨step, hfind, rfl⟩ := Option.map_eq_some_iff.mp h
  obtain ⟨hp, hmem, hfirst⟩ := List.find?_range'_eq_some.mp hfind
  rw [List.mem_range'_1] at hmem
  exact ⟨step, by omega, by omega, rfl, hp, fun k hk hlt => by simpa using hfirst k hk hlt⟩

theorem scan_isSome (hc : cursor < n) (ht : t < n) (hp : p t = true) :
    (scan n cursor p).isSome := by
  rw [scan, Option.isSome_map, List.find?_isSome]
  refine ⟨ahead n cursor t, List.mem_range'_1.mpr ?_, ?_⟩
  · have hpos := ahead_pos (t := t) hc
    have hle := ahead_le hc ht
    omega
  · rw [ahead_spec hc ht, hp]

/-- A scan for which place `t` qualifies ends there or comes closer to it. -/
theorem scan_eq_or_ahead_lt {m : ℕ} (hm : n ≤ m) (hc : cursor < n) (ht : t < n) (hp : p t = true) :
    ∃ i, scan n cursor p = some i ∧ i < n ∧ (i = t ∨ ahead m i t < ahead m cursor t) := by
  obtain ⟨i, hi⟩ := Option.isSome_iff_exists.mp (scan_isSome hc ht hp)
  obtain ⟨step, hpos, -, rfl, -, hfirst⟩ := scan_spec hi
  refine ⟨_, hi, Nat.mod_lt _ (by omega), ?_⟩
  rcases Nat.lt_trichotomy step (ahead n cursor t) with hlt | rfl | hgt
  · exact .inr (ahead_step hm hc ht hpos hlt)
  · exact .inl (ahead_spec hc ht)
  · -- the scan would have ended at `t`
    have hmiss := hfirst _ (ahead_pos hc) hgt
    rw [ahead_spec hc ht, hp] at hmiss
    cases hmiss

end JungeyOs.RoundRobin
