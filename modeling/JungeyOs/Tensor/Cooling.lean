import JungeyOs.Tensor.Device
import Mathlib.Algebra.Order.Group.Abs
import Mathlib.Algebra.Order.Ring.Int

/-!
# Cooling between samples

While no segment runs, the temperature falls with the time, but only when somebody asks for it:
`temperature` and `submit_with_budget` (`kernel/src/tensor.rs`, lines 217–236 and 268–352) call
`temperature_locked`, which takes off whole milliseconds and starts to count anew at the time of the
call. An instant is the time that `temperature_locked` reads.

Results:
* `temp_sampled`: the temperature after any samples.
* `cooling_iff`: when two ways of sampling one interval leave the same temperature, up to the cooling
  of a millisecond.
-/

namespace JungeyOs.Tensor

/-- What asks for the temperature. -/
inductive Sample
  | temperature
  | submit (owner : ℕ) (qos : Qos) (segments : ℕ) (deadlineIn energyBudgetUj : Option ℕ)

/-- The device after a sample at `now`. -/
def Sample.apply (dev : Device) (now : ℕ) : Sample → Device
  | .temperature => temperatureLocked dev now
  | .submit owner qos segments deadlineIn energyBudgetUj =>
    (submitWithBudget dev now owner qos segments deadlineIn energyBudgetUj).2

/-- The device after samples at their instants. -/
def sampled (dev : Device) (samples : List (ℕ × Sample)) : Device :=
  samples.foldl (fun dev s => s.2.apply dev s.1) dev

/-- The samples of an interval that ends with the last of them. -/
structure Samples (start stop : ℕ) (samples : List (ℕ × Sample)) : Prop where
  inside : ∀ s ∈ samples, start ≤ s.1
  sorted : (samples.map Prod.fst).Pairwise (· ≤ ·)
  stop : (samples.map Prod.fst).getLast? = some stop

/-- The whole milliseconds between the instants. A millisecond that is not whole yet goes on to the
next instant; what is left over of whole ones is lost. The count starts at `updated`, or at the first
instant if that is 0. -/
def wholeMs : (updated : ℕ) → List ℕ → ℕ
  | _, [] => 0
  | updated, now :: rest =>
    if updated = 0 then wholeMs now rest
    else if 1000 ≤ now - updated then (now - updated) / 1000 + wholeMs now rest
    else wholeMs updated rest

/-- Any sample cools the device as `temperature` does. -/
theorem apply_thermal (dev : Device) (now : ℕ) (s : Sample) :
    (s.apply dev now).tempMilliC = (temperatureLocked dev now).tempMilliC ∧
      (s.apply dev now).thermalUpdatedUs = (temperatureLocked dev now).thermalUpdatedUs := by
  cases s with
  | temperature => exact ⟨rfl, rfl⟩
  | submit owner qos segments deadlineIn budget =>
    rw [Sample.apply]
    rcases submit_cases dev now owner qos segments deadlineIn budget with
      ⟨e, why, heq⟩ | ⟨heq, -⟩ <;> rw [heq] <;> exact ⟨rfl, rfl⟩

/-- The temperature after any samples. -/
theorem temp_sampled (samples : List (ℕ × Sample)) : ∀ dev : Device,
    (sampled dev samples).tempMilliC = dev.tempMilliC -
      wholeMs dev.thermalUpdatedUs (samples.map Prod.fst) * DECAY_PER_MS_MILLI_C := by
  induction samples with
  | nil =>
    intro dev
    rw [List.map_nil, wholeMs, Nat.zero_mul]
    rfl
  | cons s samples ih =>
    intro dev
    obtain ⟨htemp, hupdated⟩ := apply_thermal dev s.1 s.2
    have hrest := ih (s.2.apply dev s.1)
    rw [htemp, hupdated] at hrest
    rw [sampled, List.foldl_cons, ← sampled, hrest, List.map_cons, wholeMs, temperatureLocked]
    by_cases hzero : dev.thermalUpdatedUs = 0
    · rw [if_pos hzero, if_pos hzero]
    · rw [if_neg hzero, if_neg hzero]
      by_cases hms : 1000 ≤ s.1 - dev.thermalUpdatedUs
      · have hpos : 0 < (s.1 - dev.thermalUpdatedUs) / 1000 := by omega
        dsimp only
        rw [if_pos hpos, if_pos hms, Nat.sub_sub, ← Nat.add_mul]
      · have hnone : ¬0 < (s.1 - dev.thermalUpdatedUs) / 1000 := by omega
        dsimp only
        rw [if_neg hnone, if_neg hms]

/-- After any two sequences of samples the temperatures differ by the cooling of a millisecond at most
if and only if the whole milliseconds between the instants differ by one at most, or the device is that
cool already after the sequence that has less of them. -/
theorem cooling_iff (dev : Device) (a b : List (ℕ × Sample)) :
    |((sampled dev a).tempMilliC : ℤ) - (sampled dev b).tempMilliC| ≤ DECAY_PER_MS_MILLI_C ↔
      (wholeMs dev.thermalUpdatedUs (a.map Prod.fst) ≤
          wholeMs dev.thermalUpdatedUs (b.map Prod.fst) + 1 ∧
        wholeMs dev.thermalUpdatedUs (b.map Prod.fst) ≤
          wholeMs dev.thermalUpdatedUs (a.map Prod.fst) + 1) ∨
      dev.tempMilliC ≤ (min (wholeMs dev.thermalUpdatedUs (a.map Prod.fst))
        (wholeMs dev.thermalUpdatedUs (b.map Prod.fst)) + 1) * DECAY_PER_MS_MILLI_C := by
  have hdecay : DECAY_PER_MS_MILLI_C = 120 := rfl
  rw [temp_sampled, temp_sampled, abs_le, hdecay]
  generalize wholeMs dev.thermalUpdatedUs (a.map Prod.fst) = m
  generalize wholeMs dev.thermalUpdatedUs (b.map Prod.fst) = n
  generalize dev.tempMilliC = temp
  omega

/-- A hot device. -/
def hot : Device := ⟨[], 1, CRITICAL_MILLI_C, 1000000, INITIAL_SEGMENT_US, none, 0, CRITICAL_MILLI_C⟩

/-- In the same 10 ms one way of sampling counts 10 of them and the other one 5. -/
theorem asked_too_often : ¬∀ (dev : Device) (start stop : ℕ) (a b : List (ℕ × Sample)),
    dev.thermalUpdatedUs ≤ start → Samples start stop a → Samples start stop b →
      |((sampled dev a).tempMilliC : ℤ) - (sampled dev b).tempMilliC| ≤ DECAY_PER_MS_MILLI_C := by
  intro h
  have hsamples : ∀ times : List ℕ, (∀ t ∈ times, 1000000 ≤ t) → times.Pairwise (· ≤ ·) →
      times.getLast? = some 1010000 →
        Samples 1000000 1010000 (times.map fun t => (t, .temperature)) := by
    intro times hin hsorted hlast
    have hmap : (times.map fun t => (t, Sample.temperature)).map Prod.fst = times := by
      rw [List.map_map]
      exact List.map_id times
    exact ⟨by simpa using hin, by rwa [hmap], by rwa [hmap]⟩
  have hfar := h hot 1000000 1010000 _ _ le_rfl
    (hsamples [1010000] (by decide) (by decide) rfl)
    (hsamples [1001999, 1003998, 1005997, 1007996, 1009995, 1010000] (by decide) (by decide) rfl)
  rw [temp_sampled, temp_sampled] at hfar
  exact absurd hfar (by decide)

end JungeyOs.Tensor
