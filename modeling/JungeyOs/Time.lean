import Mathlib.Algebra.Order.Group.Abs
import Mathlib.Algebra.Order.Ring.Int
import Mathlib.Data.List.Induction
import Mathlib.Tactic.Ring

/-!
# The two clocks

Models of `kernel/src/time.rs`, lines 13–109: both clocks divide the counter that the hardware gives
them, by numbers that are rounded down. A reading of the counter is a natural number here, so that an
interval may have any length. Below 1 MHz `now_us` divides by zero.

Results:
* `started_boot`: from `start` on, the origin of the ticks is a reading that is past.
* `keepsPace_one`: at a whole number of megahertz the clocks are never more than a tick apart.
* `keepsPace_iff`: at any other frequency they drift apart.
-/

namespace JungeyOs.Time

/-- `HZ` (line 14). -/
def HZ : ℕ := 100

/-- `INTERVAL` and `BOOT_CYCLES` (lines 16–19). -/
structure Clock where
  interval : ℕ
  bootCycles : ℕ

/-- Before `start`. -/
def Clock.init : Clock := ⟨0, 0⟩

/-- `ticks` (lines 70–76), where the counter reads `now`. -/
def Clock.ticks (c : Clock) (now : ℕ) : ℕ :=
  if c.interval = 0 then 0 else (now - c.bootCycles) / c.interval

/-- `now_us` (lines 83–89). -/
def nowUs (frequency now : ℕ) : ℕ :=
  if frequency = 0 then 0 else now / (frequency / 1000000)

/-- `start` (lines 98–109), up to the programming of the timer, on a core where the counter reads
`now`. -/
def Clock.start (frequency : ℕ) (c : Clock) (now : ℕ) : Clock where
  interval := frequency / HZ
  bootCycles := if c.bootCycles = 0 then now else c.bootCycles

/-- The cores have come to `start` at these readings. -/
def started (frequency : ℕ) (readings : List ℕ) : Clock :=
  readings.foldl (Clock.start frequency) Clock.init

/-- In all intervals after `start` the microseconds and the ticks that go by differ by `k` ticks at
most. -/
def KeepsPace (frequency k : ℕ) : Prop :=
  ∀ (readings : List ℕ) (t₁ t₂ : ℕ), readings ≠ [] → (∀ r ∈ readings, r ≤ t₁) → t₁ ≤ t₂ →
    |((nowUs frequency t₂ : ℤ) - nowUs frequency t₁) - 10000 *
      ((started frequency readings).ticks t₂ - (started frequency readings).ticks t₁)| ≤ 10000 * k

section

variable {frequency : ℕ}

/-- The interval of the ticks, and an origin that is past. -/
theorem started_boot {readings : List ℕ} {now : ℕ} (hne : readings ≠ []) (hpast : ∀ r ∈ readings, r ≤ now) :
    (started frequency readings).interval = frequency / HZ ∧
      (started frequency readings).bootCycles ≤ now := by
  induction readings using List.reverseRecOn with
  | nil => exact absurd rfl hne
  | append_singleton readings r ih =>
    have hr : r ≤ now := hpast r (by simp)
    rw [started, List.foldl_append]
    refine ⟨rfl, ?_⟩
    show (if (started frequency readings).bootCycles = 0 then r else _) ≤ now
    by_cases hboot : (started frequency readings).bootCycles = 0
    · rwa [if_pos hboot]
    · rw [if_neg hboot]
      have hne' : readings ≠ [] := by
        rintro rfl
        exact hboot rfl
      exact (ih hne' fun x hx => hpast x (List.mem_append_left _ hx)).2

/-- Two quotients by the same number grow alike, up to one. -/
theorem div_add_sub_div (boot u x y : ℕ) :
    |(((boot + y) / u : ℕ) - ((boot + x) / u : ℕ) : ℤ) - ((y / u : ℕ) - (x / u : ℕ))| ≤ 1 := by
  rcases Nat.eq_zero_or_pos u with rfl | hu
  · simp
  have hx := Nat.add_div (a := boot) (b := x) hu
  have hy := Nat.add_div (a := boot) (b := y) hu
  rw [hx, hy, abs_le]
  constructor <;> split_ifs <;> push_cast <;> omega

/-- At a whole number of megahertz a tick is 10000 microseconds of the other clock. -/
theorem keepsPace_one (hpos : 1000000 ≤ frequency) (hwhole : 1000000 ∣ frequency) :
    KeepsPace frequency 1 := by
  intro readings t₁ t₂ hne hpast hle
  obtain ⟨hinterval, hboot⟩ : (started frequency readings).interval = frequency / HZ ∧
      (started frequency readings).bootCycles ≤ t₁ := started_boot hne hpast
  obtain ⟨u, rfl⟩ := hwhole
  have hu : 0 < u := by omega
  have hmega : 1000000 * u / 1000000 = u := Nat.mul_div_cancel_left u (by decide)
  have htick : 1000000 * u / HZ = u * 10000 := by
    rw [HZ]
    omega
  obtain ⟨x, rfl⟩ := Nat.exists_eq_add_of_le hboot
  obtain ⟨y, rfl⟩ := Nat.exists_eq_add_of_le (hboot.trans hle)
  have hdiff := abs_le.mp (div_add_sub_div (started (1000000 * u) readings).bootCycles u x y)
  rw [Clock.ticks, Clock.ticks, hinterval, htick, if_neg (by omega), if_neg (by omega), nowUs, nowUs,
    if_neg (by omega), if_neg (by omega), hmega, Nat.add_sub_cancel_left, Nat.add_sub_cancel_left,
    ← Nat.div_div_eq_div_mul, ← Nat.div_div_eq_div_mul, abs_le]
  generalize ((started (1000000 * u) readings).bootCycles + y) / u = b at hdiff ⊢
  generalize ((started (1000000 * u) readings).bootCycles + x) / u = a at hdiff ⊢
  generalize y / u = q at hdiff ⊢
  generalize x / u = p at hdiff ⊢
  omega

/-- At any other frequency the microseconds run ahead, by a part of each tick. -/
theorem not_keepsPace (hpos : 1000000 ≤ frequency) (hz : HZ ∣ frequency)
    (hwhole : ¬1000000 ∣ frequency) (k : ℕ) : ¬KeepsPace frequency k := by
  intro h
  obtain ⟨interval, rfl⟩ := hz
  rw [HZ] at h hpos hwhole
  have hu : 0 < 100 * interval / 1000000 := by omega
  have hinterval : 100 * interval / HZ = interval := by
    rw [HZ]
    omega
  -- the part of an interval that a tick of whole microseconds leaves out
  obtain ⟨rest, hrest, hrestPos⟩ : ∃ rest,
      interval = 10000 * (100 * interval / 1000000) + rest ∧ 0 < rest :=
    ⟨interval - 10000 * (100 * interval / 1000000), by omega, by omega⟩
  have hfar := h [0] 0 ((10000 * k + 1) * (interval * (100 * interval / 1000000)))
    (List.cons_ne_nil _ _) (by simp) (Nat.zero_le _)
  have hclock : started (100 * interval) [0] = ⟨interval, 0⟩ := by
    simp [started, Clock.start, Clock.init, hinterval]
  rw [hclock, Clock.ticks, Clock.ticks, nowUs, nowUs] at hfar
  dsimp only at hfar
  rw [if_neg (by omega), if_neg (by omega), if_neg (by omega), if_neg (by omega), Nat.sub_zero,
    Nat.zero_sub, Nat.zero_div, Nat.zero_div] at hfar
  generalize 100 * interval / 1000000 = u at hu hrest hfar
  have hus : (10000 * k + 1) * (interval * u) / u = (10000 * k + 1) * interval := by
    rw [← Nat.mul_assoc, Nat.mul_div_cancel _ hu]
  have hticks : (10000 * k + 1) * (interval * u) / interval = (10000 * k + 1) * u := by
    rw [Nat.mul_left_comm, Nat.mul_div_cancel_left _ (by omega)]
  rw [hus, hticks, hrest, abs_le] at hfar
  have hgap : (((10000 * k + 1) * (10000 * u + rest) : ℕ) : ℤ) - (0 : ℕ) -
      10000 * (((10000 * k + 1) * u : ℕ) - (0 : ℕ)) = (10000 * k + 1) * rest := by
    push_cast
    ring
  have hrest1 : (1 : ℤ) ≤ rest := by exact_mod_cast hrestPos
  have hlarge : (10000 * k + 1 : ℤ) * 1 ≤ (10000 * k + 1) * rest :=
    Int.mul_le_mul_of_nonneg_left hrest1 (by omega)
  rw [hgap] at hfar
  omega

/-- At a frequency of 1 MHz or more that `HZ` divides, the clocks stay within a constant of each other,
in fact within a tick, if and only if the frequency is a whole number of megahertz. -/
theorem keepsPace_iff (hpos : 1000000 ≤ frequency) (hz : HZ ∣ frequency) :
    ((∃ k, KeepsPace frequency k) ↔ 1000000 ∣ frequency) ∧
      (KeepsPace frequency 1 ↔ 1000000 ∣ frequency) := by
  have hone : 1000000 ∣ frequency → KeepsPace frequency 1 := keepsPace_one hpos
  have hany : ∀ k, KeepsPace frequency k → 1000000 ∣ frequency := fun k hk =>
    by_contra fun hwhole => not_keepsPace hpos hz hwhole k hk
  exact ⟨⟨fun ⟨k, hk⟩ => hany k hk, fun h => ⟨1, hone h⟩⟩, ⟨hany 1, hone⟩⟩

end

/-- The generic timer at 24 MHz. -/
theorem keepsPace_iff_24MHz : ((∃ k, KeepsPace 24000000 k) ↔ 1000000 ∣ 24000000) ∧
    (KeepsPace 24000000 1 ↔ 1000000 ∣ 24000000) :=
  keepsPace_iff (by decide) (by decide)

/-- At 62.5 MHz a microsecond is taken to be 62 cycles. -/
theorem drifts_at_62_5_MHz : ¬∃ k, ∀ frequency, 1000000 ≤ frequency → HZ ∣ frequency →
    KeepsPace frequency k := by
  rintro ⟨k, h⟩
  have hpace : KeepsPace 62500000 k := h 62500000 (by decide) (by decide)
  exact not_keepsPace (by decide) (by decide) (by decide) k hpace

end JungeyOs.Time
