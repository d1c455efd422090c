import JungeyOs.Lib.Leftmost
import JungeyOs.Tensor.Device
import Mathlib.Order.WithBot

/-!
# The job that the device takes

`pick` of `kernel/src/tensor.rs`, lines 387–412, as a loop over indices, and the choice of the
worker, which runs the job at the index. A job is pushed at the end of the list, so the order of
the indices is the order of submission.

Results:
* `pick_spec`: `pick` finds no job where none can run, and else the first of those whose class and
  deadline come first. The worker runs that job.
-/

namespace JungeyOs.Tensor

/-- One round of the loop of `pick` (lines 392–410) at job `x.1` with index `x.2`. -/
def betterIdx (jobs : List Job) (best : Option ℕ) (x : Job × ℕ) : Option ℕ :=
  if ¬x.1.Live then best
  else if x.1.segments ≤ x.1.doneSegments then best
  else match best with
    | none => some x.2
    | some b =>
      match jobs[b]? with
      | some c => if x.1.urgency < c.urgency then some x.2 else some b
      | none => some b -- not reached: `b` is behind the loop

/-- `pick` (lines 387–412), the index. -/
def pickIdx (jobs : List Job) : Option ℕ := jobs.zipIdx.foldl (betterIdx jobs) none

/-- The deadline of a job, or infinity. -/
def deadlineOrTop : Option ℕ → WithTop ℕ
  | none => ⊤
  | some d => WithTop.some d

/-- What `pick` compares a job by, with infinity itself in the place of `u64::MAX`. -/
def Job.dueBy (j : Job) : ℕ ×ₗ WithTop ℕ := toLex (j.qos.toNat, deadlineOrTop j.deadlineUs)

/-! ## The loop -/

section

variable {jobs l : List Job} {best : Option ℕ} {j : Job}

theorem betterIdx_skip (i : ℕ) (hj : ¬j.Pickable) : betterIdx jobs best (j, i) = best := by
  unfold betterIdx
  by_cases hlive : j.Live
  · rw [if_neg (not_not.mpr hlive), if_pos (Nat.not_lt.mp fun hlt => hj ⟨hlive, hlt⟩)]
  · rw [if_pos hlive]

theorem betterIdx_none (i : ℕ) (hj : j.Pickable) : betterIdx jobs none (j, i) = some i := by
  unfold betterIdx
  rw [if_neg (not_not.mpr hj.1), if_neg (Nat.not_le.mpr hj.2)]

theorem betterIdx_some {b : ℕ} {c : Job} (i : ℕ) (hj : j.Pickable) (hc : jobs[b]? = some c) :
    betterIdx jobs (some b) (j, i) = if j.urgency < c.urgency then some i else some b := by
  unfold betterIdx
  rw [if_neg (not_not.mpr hj.1), if_neg (Nat.not_le.mpr hj.2)]
  simp only [hc]

/-- One more job is considered. -/
theorem leftmost_betterIdx (h : Leftmost Job.Pickable Job.urgency l best)
    (hl : ∀ i < l.length, jobs[i]? = l[i]?) :
    Leftmost Job.Pickable Job.urgency (l ++ [j]) (betterIdx jobs best (j, l.length)) := by
  by_cases hj : j.Pickable
  · cases best with
    | none =>
      rw [betterIdx_none _ hj]
      exact h.append_take hj fun i hi => by cases hi
    | some b =>
      have hb := h.lt_length
      have hc : l[b]? = some l[b] := List.getElem?_eq_getElem hb
      rw [betterIdx_some _ hj ((hl b hb).trans hc)]
      by_cases hlt : j.urgency < l[b].urgency
      · rw [if_pos hlt]
        refine h.append_take hj fun i hi y hy => ?_
        obtain rfl := Option.some.inj hi
        rwa [← Option.some.inj (hc.symm.trans hy)]
      · rw [if_neg hlt]
        exact h.append_keep hc (not_lt.mp hlt)
  · rw [betterIdx_skip _ hj]
    exact h.append_skip hj

/-- The loop over the first jobs. -/
theorem leftmost_foldl (l rest : List Job) (hjobs : jobs = l ++ rest) :
    Leftmost Job.Pickable Job.urgency l (l.zipIdx.foldl (betterIdx jobs) none) := by
  induction l using List.reverseRecOn generalizing rest with
  | nil => exact .nil
  | append_singleton l j ih =>
    rw [List.append_assoc] at hjobs
    rw [List.zipIdx_append, List.foldl_append]
    have hold : ∀ i < l.length, jobs[i]? = l[i]? := fun i hi => by
      rw [hjobs, List.getElem?_append_left hi]
    simpa using leftmost_betterIdx (j := j) (ih _ hjobs) hold

/-- `pick` finds the first of the jobs that come first by class and deadline. -/
theorem leftmost_pickIdx (jobs : List Job) :
    Leftmost Job.Pickable Job.urgency jobs (pickIdx jobs) :=
  leftmost_foldl jobs [] (List.append_nil jobs).symm

end

/-! ## The job -/

/-- `pick` is the job at the index. -/
theorem pick_eq_bind (jobs : List Job) : pick jobs = (pickIdx jobs).bind (jobs[·]?) := by
  have hfold : ∀ l rest : List Job, jobs = l ++ rest →
      l.foldl better none = (l.zipIdx.foldl (betterIdx jobs) none).bind (l[·]?) := by
    intro l
    induction l using List.reverseRecOn with
    | nil => exact fun _ _ => rfl
    | append_singleton l j ih =>
      intro rest hjobs
      rw [List.append_assoc] at hjobs
      have hleft := leftmost_foldl l _ hjobs
      have hold := ih _ hjobs
      rw [List.zipIdx_append, List.foldl_append, List.foldl_append, hold]
      simp only [List.zipIdx_singleton, List.foldl_cons, List.foldl_nil, Nat.zero_add]
      cases hbest : l.zipIdx.foldl (betterIdx jobs) none with
      | none =>
        by_cases hj : j.Pickable
        · rw [betterIdx_none _ hj]
          simp [better, hj]
        · rw [betterIdx_skip _ hj]
          simp [better, hj]
      | some b =>
        rw [hbest] at hleft
        have hb := hleft.lt_length
        have hc : jobs[b]? = some l[b] := by
          rw [hjobs, List.getElem?_append_left hb, List.getElem?_eq_getElem hb]
        have hget : l[b]? = some l[b] := List.getElem?_eq_getElem hb
        by_cases hj : j.Pickable
        · rw [betterIdx_some _ hj hc, Option.bind_some, hget, better, if_neg (not_not.mpr hj)]
          by_cases hlt : j.urgency < l[b].urgency
          · simp [hlt]
          · simp [hlt, List.getElem?_append_left hb, hget]
        · rw [betterIdx_skip _ hj, Option.bind_some, hget, better, if_pos hj, Option.bind_some,
            List.getElem?_append_left hb, hget]
  exact hfold jobs [] (List.append_nil jobs).symm

theorem getD_lt_iff {x y : Option ℕ} (hx : ∀ d ∈ x, d < U64_MAX) (hy : ∀ d ∈ y, d < U64_MAX) :
    x.getD U64_MAX < y.getD U64_MAX ↔ deadlineOrTop x < deadlineOrTop y := by
  cases x with
  | none =>
    cases y with
    | none => simp [deadlineOrTop]
    | some d => simpa [deadlineOrTop] using (hy d rfl).le
  | some c =>
    cases y with
    | none => simpa [deadlineOrTop] using hx c rfl
    | some d => simp [deadlineOrTop]

/-- Where no deadline is `u64::MAX`, a job without one comes after all that have one. -/
theorem urgency_lt_iff {a b : Job} (ha : ∀ d ∈ a.deadlineUs, d < U64_MAX)
    (hb : ∀ d ∈ b.deadlineUs, d < U64_MAX) : a.urgency < b.urgency ↔ a.dueBy < b.dueBy := by
  have hiff := getD_lt_iff ha hb
  unfold Job.urgency Job.dueBy
  rw [Prod.Lex.toLex_lt_toLex, Prod.Lex.toLex_lt_toLex]
  exact or_congr Iff.rfl (and_congr Iff.rfl hiff)

/-- `pick` finds no job where none is queued or running with segments left. Else it finds the one
whose class and deadline come first, the earliest submitted among equals: a submission appends
its job. Where no deadline is `u64::MAX`, a job without one comes last in its class. The worker
runs the job found: no runnable job is of a higher class, and none of its class is due earlier. -/
theorem pick_spec (jobs : List Job) :
    (pickIdx jobs = none ↔ ∀ j ∈ jobs, ¬j.Pickable) ∧
    (∀ i, pickIdx jobs = some i ↔ ∃ j, jobs[i]? = some j ∧ j.Pickable ∧
      ∀ k c, jobs[k]? = some c → c.Pickable →
        j.urgency < c.urgency ∨ j.urgency = c.urgency ∧ i ≤ k) ∧
    ((∀ j ∈ jobs, ∀ d ∈ j.deadlineUs, d < U64_MAX) →
      ∀ i, pickIdx jobs = some i ↔ ∃ j, jobs[i]? = some j ∧ j.Pickable ∧
        ∀ k c, jobs[k]? = some c → c.Pickable →
          j.dueBy < c.dueBy ∨ j.dueBy = c.dueBy ∧ i ≤ k) ∧
    ∀ dev : Device, dev.jobs = jobs →
      (∀ now owner qos segments deadlineIn budget, ∃ x : Job, x.submittedUs = now ∧
        (submitWithBudget dev now owner qos segments deadlineIn budget).2.jobs = jobs ++ [x]) ∧
      ((choose dev).1 = none ↔ ∀ j ∈ jobs, ¬j.Pickable) ∧
      ∀ id, (choose dev).1 = some id → ∃ i j, pickIdx jobs = some i ∧ jobs[i]? = some j ∧
        j.id = id ∧ j.Pickable ∧ ∀ c ∈ jobs, c.Pickable → j.qos.toNat ≤ c.qos.toNat ∧
          (c.qos = j.qos → j.deadlineUs.getD U64_MAX ≤ c.deadlineUs.getD U64_MAX) := by
  have hleft := leftmost_pickIdx jobs
  have hnone : pickIdx jobs = none ↔ ∀ j ∈ jobs, ¬j.Pickable := by
    refine ⟨fun h => ?_, fun h => ?_⟩
    · rw [h] at hleft
      exact hleft
    · exact hleft.unique h
  refine ⟨hnone, fun i => ⟨fun h => ?_, fun h => ?_⟩, fun hdue i => ?_, fun dev hdev => ⟨?_, ?_, ?_⟩⟩
  · rw [h] at hleft
    exact hleft
  · exact hleft.unique h
  · have hleft' : Leftmost Job.Pickable Job.dueBy jobs (pickIdx jobs) :=
      hleft.congr_key fun x hx y hy => urgency_lt_iff (hdue x hx) (hdue y hy)
    refine ⟨fun h => ?_, fun h => ?_⟩
    · rw [h] at hleft'
      exact hleft'
    · exact hleft'.unique h
  · intro now owner qos segments deadlineIn budget
    have hjobs : (temperatureLocked dev now).jobs = jobs := by rw [temperatureLocked_eq, hdev]
    rcases submit_cases dev now owner qos segments deadlineIn budget with ⟨e, why, heq⟩ | ⟨heq, -⟩
    · rw [heq]
      exact ⟨_, rfl, congrArg (· ++ [_]) hjobs⟩
    · rw [heq]
      exact ⟨_, rfl, congrArg (· ++ [_]) hjobs⟩
  · rw [← hnone]
    unfold choose
    rw [hdev, pick_eq_bind]
    cases hpick : pickIdx jobs with
    | none => simp
    | some i =>
      rw [hpick] at hleft
      have hi := hleft.lt_length
      simp [List.getElem?_eq_getElem hi]
  · intro id hid
    unfold choose at hid
    rw [hdev, pick_eq_bind] at hid
    cases hpick : pickIdx jobs with
    | none => simp [hpick] at hid
    | some i =>
      rw [hpick] at hleft
      obtain ⟨j, hj, hjp, hleast⟩ := hleft
      simp only [hpick, Option.bind_some, hj, Option.some.injEq] at hid
      refine ⟨i, j, rfl, hj, hid, hjp, fun c hc hcp => ?_⟩
      obtain ⟨k, hk⟩ := List.mem_iff_getElem?.mp hc
      have hle : j.urgency ≤ c.urgency := by
        rcases hleast k c hk hcp with hlt | ⟨heq, -⟩
        · exact hlt.le
        · exact heq.le
      rcases Prod.Lex.toLex_le_toLex.mp hle with hlt | ⟨heq, hdl⟩
      · exact ⟨hlt.le, fun hq => absurd (congrArg Qos.toNat hq.symm) hlt.ne⟩
      · exact ⟨heq.le, fun _ => hdl⟩

end JungeyOs.Tensor
