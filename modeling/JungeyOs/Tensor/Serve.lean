import JungeyOs.Lib.Run
import JungeyOs.Tensor.Device
import Mathlib.Algebra.Order.BigOperators.Group.List
import Mathlib.Algebra.Order.Ring.Nat

/-!
# The accelerator at work

The worker of `kernel/src/tensor.rs`, lines 446–538, with jobs submitted at any time, also
while a segment runs. Only a segment and an idle device take time. `finishAt` is the time at
which the worker will have finished everything up to a place in its order, if nothing more is
submitted.

Results:
* `Valid.served`, `Valid.pushed`: every step keeps what holds of the device.
* `finishAt_served`: the worker does not change `finishAt` of a job that it has not finished.
* `ends`: the worker finishes every job that has a segment to run.
-/

namespace JungeyOs.Tensor

/-! ## The system -/

/-- Where the worker stands. `len` is what the segment that it started will take. -/
inductive Worker
  | boundary
  | blocked
  | running (id started len : ℕ)
  deriving DecidableEq

/-- `wake_all_on(DEVICE_TOKEN)`. -/
def Worker.wake : Worker → Worker
  | .blocked => .boundary
  | w => w

structure Sys where
  now : ℕ
  dev : Device
  worker : Worker

inductive Act
  | submit (owner : ℕ) (qos : Qos) (segments : ℕ) (deadlineIn energyBudgetUj : Option ℕ)
  | choose (len : ℕ)
  | tick (us : ℕ)
  | finish

namespace Sys

/-- The device after a submission with this answer; one that is admitted wakes the worker. -/
def submitted (s : Sys) (r : Except Reject ℕ × Device) : Sys :=
  { s with
    dev := r.2
    worker := match r.1 with
      | .ok _ => s.worker.wake
      | .error _ => s.worker }

def step (s : Sys) : Act → Option Sys
  | .submit owner qos segments deadlineIn energyBudgetUj =>
    some (s.submitted (submitWithBudget s.dev s.now owner qos segments deadlineIn energyBudgetUj))
  | .choose len =>
    match s.worker with
    | .boundary =>
      match choose s.dev with
      | (some id, dev) => some { s with dev := dev, worker := .running id s.now len }
      | (none, dev) => some { s with dev := dev, worker := .blocked }
    | _ => none
  | .tick us =>
    match s.worker with
    | .boundary => none
    | .blocked => some { s with now := s.now + us }
    | .running _ started len =>
      if s.now + us ≤ started + len then some { s with now := s.now + us } else none
  | .finish =>
    match s.worker with
    | .running id started len =>
      if s.now = started + len then
        some { s with dev := account s.dev id (s.now - started) s.now, worker := .boundary }
      else none
    | _ => none

/-- At boot, at a time `now`; `cost` is `INITIAL_SEGMENT_US` there. -/
def init (cost now : ℕ) : Sys :=
  { now
    dev := { jobs := [], nextId := 1, tempMilliC := 0, thermalUpdatedUs := 0, usPerSegment := cost
             lastRun := none, segmentsRun := 0, peakMilliC := 0 }
    worker := .boundary }

end Sys

/-- The worker's own steps, where a segment takes exactly `us_per_segment`. -/
def Serving (s : Sys) : Act → Prop
  | .submit .. => False
  | .choose len => len = s.dev.usPerSegment
  | _ => True

/-! ## Work -/

/-- The device is done with the job. -/
def Job.Ended (j : Job) : Prop := j.state = .done ∨ j.state = .overBudget

/-- The segments that a job runs before it is done or has spent its budget: it has `rem` segments
left, and each takes `e` of its energy. -/
def segmentsLeft (budget : Option ℕ) (e : ℕ) : (rem energyUj : ℕ) → ℕ
  | 0, _ => 0
  | rem + 1, energyUj =>
    if SpentOut budget (energyUj + e) then 1 else segmentsLeft budget e rem (energyUj + e) + 1

/-- The segments of cost `c` that the device will run for the job. -/
def Job.todo (c : ℕ) (j : Job) : ℕ :=
  if j.Pickable then
    segmentsLeft j.energyBudgetUj (energyOf c) (j.segments - j.doneSegments) j.energyUj
  else 0

/-- The segments of all jobs up to the place `r`. -/
def total (c : ℕ) (jobs : List Job) (r : (ℕ ×ₗ ℕ) ×ₗ ℕ) : ℕ :=
  (jobs.map fun j => if j.rank ≤ r then j.todo c else 0).sum

/-- The rest of the segment in progress. -/
def Sys.rest (s : Sys) : ℕ :=
  match s.worker with
  | .running _ started len => started + len - s.now
  | _ => 0

/-- The number of segments in progress of jobs up to the place `r`. -/
def Sys.inProgress (s : Sys) (r : (ℕ ×ₗ ℕ) ×ₗ ℕ) : ℕ :=
  match s.worker with
  | .running id _ _ => if ∃ j ∈ s.dev.jobs, j.id = id ∧ j.rank ≤ r then 1 else 0
  | _ => 0

/-- The time at which everything up to the place `r` is finished. -/
def Sys.finishAt (c : ℕ) (s : Sys) (r : (ℕ ×ₗ ℕ) ×ₗ ℕ) : ℕ :=
  s.now + s.rest + (total c s.dev.jobs r - s.inProgress r) * c

/-! ## Work of a job -/

section

variable {c rem energyUj e : ℕ} {budget : Option ℕ} {j j' m : Job} {jobs : List Job}
  {r r' : (ℕ ×ₗ ℕ) ×ₗ ℕ}

theorem segmentsLeft_le : segmentsLeft budget e rem energyUj ≤ rem := by
  induction rem generalizing energyUj with
  | zero => exact Nat.le_refl 0
  | succ rem ih =>
    rw [segmentsLeft]
    by_cases hs : SpentOut budget (energyUj + e)
    · rw [if_pos hs]
      exact Nat.succ_le_succ (Nat.zero_le rem)
    · rw [if_neg hs]
      exact Nat.succ_le_succ ih

theorem segmentsLeft_pos (h : 0 < rem) : 0 < segmentsLeft budget e rem energyUj := by
  obtain ⟨rem, rfl⟩ : ∃ k, rem = k + 1 := ⟨rem - 1, by omega⟩
  rw [segmentsLeft]
  by_cases hs : SpentOut budget (energyUj + e)
  · rw [if_pos hs]
    exact Nat.one_pos
  · rw [if_neg hs]
    exact Nat.succ_pos _

theorem todo_of_not_pickable (h : ¬j.Pickable) : j.todo c = 0 := if_neg h

theorem todo_pos (h : j.Pickable) : 0 < j.todo c := by
  rw [Job.todo, if_pos h]
  exact segmentsLeft_pos (Nat.sub_pos_of_lt h.2)

theorem todo_le : j.todo c ≤ j.segments - j.doneSegments := by
  by_cases h : j.Pickable
  · rw [Job.todo, if_pos h]
    exact segmentsLeft_le
  · rw [todo_of_not_pickable h]
    exact Nat.zero_le _

theorem Job.Same.todo (h : j.Same j') : j'.todo c = j.todo c := by
  unfold Job.todo
  by_cases hp : j.Pickable
  · rw [if_pos hp, if_pos (h.pickable.mpr hp), h.fields]
  · rw [if_neg hp, if_neg fun hp' => hp (h.pickable.mp hp')]

/-- What is left of a job after a segment: it is finished now, or has one segment less to
run. -/
theorem segmentDone_cases (h : j.Pickable) (now : ℕ) :
    (j.segmentDone c now).todo c + 1 = j.todo c ∧
      ((j.segmentDone c now).Pickable ∨
        (j.segmentDone c now).Ended ∧ (j.segmentDone c now).finishedUs = now) := by
  obtain ⟨rem, hrem⟩ : ∃ k, j.segments - j.doneSegments = k + 1 :=
    ⟨j.segments - j.doneSegments - 1, by have := h.2; omega⟩
  have hold : j.todo c = if SpentOut j.energyBudgetUj (j.energyUj + energyOf c) then 1
      else segmentsLeft j.energyBudgetUj (energyOf c) rem (j.energyUj + energyOf c) + 1 := by
    rw [Job.todo, if_pos h, hrem, segmentsLeft]
  unfold Job.segmentDone
  dsimp only
  by_cases hdone : j.segments ≤ j.doneSegments + 1
  · have hzero : rem = 0 := by omega
    rw [if_pos hdone, hold, hzero, segmentsLeft]
    refine ⟨?_, .inr ⟨.inl rfl, rfl⟩⟩
    rw [todo_of_not_pickable fun hp => ?_, ite_self]
    exact absurd hp.2 (Nat.not_lt.mpr hdone)
  · rw [if_neg hdone]
    by_cases hspent : SpentOut j.energyBudgetUj (j.energyUj + energyOf c)
    · rw [if_pos hspent, hold, if_pos hspent]
      refine ⟨?_, .inr ⟨.inr rfl, rfl⟩⟩
      rw [todo_of_not_pickable fun hp => ?_]
      rcases hp.1 with hl | hl <;> cases hl
    · rw [if_neg hspent, hold, if_neg hspent]
      have hp : ({ j with
          doneSegments := j.doneSegments + 1, deviceUs := j.deviceUs + c
          energyUj := j.energyUj + energyOf c } : Job).Pickable := ⟨h.1, Nat.lt_of_not_le hdone⟩
      refine ⟨?_, .inl hp⟩
      rw [Job.todo, if_pos hp]
      have hrem' : j.segments - (j.doneSegments + 1) = rem := by omega
      show segmentsLeft _ _ (j.segments - (j.doneSegments + 1)) _ + 1 = _
      rw [hrem']

theorem rank_segmentDone (j : Job) (elapsed now : ℕ) :
    (j.segmentDone elapsed now).rank = j.rank := by
  unfold Job.segmentDone
  dsimp only
  split_ifs <;> rfl

/-! ## Work of all jobs -/

theorem total_map {g : Job → Job} (hg : ∀ j ∈ jobs, j.Same (g j)) :
    total c (jobs.map g) r = total c jobs r := by
  unfold total
  rw [List.map_map]
  refine congrArg List.sum (List.map_congr_left fun j hj => ?_)
  show (if (g j).rank ≤ r then (g j).todo c else 0) = _
  rw [(hg j hj).rank, (hg j hj).todo]

theorem total_append : total c (jobs ++ [j]) r =
    total c jobs r + if j.rank ≤ r then j.todo c else 0 := by
  unfold total
  rw [List.map_append, List.sum_append, List.map_singleton, List.sum_singleton]

theorem le_total (hm : m ∈ jobs) (hr : m.rank ≤ r) : m.todo c ≤ total c jobs r := by
  have hmem := List.mem_map_of_mem (f := fun j : Job => if j.rank ≤ r then j.todo c else 0) hm
  rw [if_pos hr] at hmem
  exact List.single_le_sum (fun _ _ => Nat.zero_le _) _ hmem

/-- A place further back has the work of the jobs between. -/
theorem total_lt (hm : m ∈ jobs) (hp : m.Pickable) (hr : r < m.rank) (hr' : m.rank ≤ r') :
    total c jobs r < total c jobs r' := by
  refine List.sum_lt_sum _ _ (fun j _ => ?_) ⟨m, hm, ?_⟩
  · by_cases hj : j.rank ≤ r
    · rw [if_pos hj, if_pos (hj.trans (hr.le.trans hr'))]
    · rw [if_neg hj]
      exact Nat.zero_le _
  · rw [if_neg (not_le.mpr hr), if_pos hr']
    exact todo_pos hp

/-- A job has run a segment. -/
theorem total_segmentDone (hnodup : (jobs.map Job.id).Nodup) (hm : m ∈ jobs) (hp : m.Pickable)
    (now : ℕ) :
    total c (updateJob jobs m.id fun j => j.segmentDone c now) r +
      (if m.rank ≤ r then 1 else 0) = total c jobs r := by
  have hlook : Dir.lookup Job.id jobs m.id = some m := Dir.lookup_of_mem hnodup hm
  have hsum := Dir.sum_put (e := m.segmentDone c now)
    (fun j : Job => if j.rank ≤ r then j.todo c else 0) hlook
  have hdone := (segmentDone_cases (c := c) hp now).1
  simp only [total, updateJob, hlook]
  rw [rank_segmentDone] at hsum
  by_cases hr : m.rank ≤ r
  · rw [if_pos hr, if_pos hr] at hsum
    rw [if_pos hr]
    omega
  · rw [if_neg hr, if_neg hr] at hsum
    rw [if_neg hr]
    omega

end

/-! ## What holds in every run -/

/-- The device and the worker fit together, and a segment takes `c`. -/
structure Valid (c : ℕ) (s : Sys) : Prop where
  ids : s.dev.jobs.Pairwise fun a b => a.id < b.id
  below : ∀ j ∈ s.dev.jobs, j.id < s.dev.nextId
  cost : s.dev.usPerSegment = c
  done_le : ∀ j ∈ s.dev.jobs, j.doneSegments ≤ j.segments
  running : ∀ id started len, s.worker = .running id started len →
    len = c ∧ started ≤ s.now ∧ s.now ≤ started + len ∧ ∃ m ∈ s.dev.jobs, m.id = id ∧ m.Pickable
  blocked : s.worker = .blocked → ∀ j ∈ s.dev.jobs, ¬j.Pickable

theorem valid_init (c now : ℕ) : Valid c (Sys.init c now) :=
  ⟨List.Pairwise.nil, nofun, rfl, nofun, nofun, nofun⟩

/-- What a step of the worker does. -/
inductive Served (c : ℕ) (s : Sys) : Sys → Prop
  /-- nothing runs, and time passes -/
  | idle (us : ℕ) : s.worker = .blocked → Served c s { s with now := s.now + us }
  /-- a segment runs -/
  | passed (us id started : ℕ) : s.worker = .running id started c → s.now + us ≤ started + c →
      Served c s { s with now := s.now + us }
  /-- there is no job -/
  | slept : s.worker = .boundary → (∀ j ∈ s.dev.jobs, ¬j.Pickable) →
      Served c s { s with dev := { s.dev with lastRun := none }, worker := .blocked }
  /-- a segment of the first job starts -/
  | chosen (m : Job) (g : Job → Job) : s.worker = .boundary → m ∈ s.dev.jobs → m.Pickable →
      (∀ j ∈ s.dev.jobs, j.Pickable → m.rank ≤ j.rank) → (∀ j ∈ s.dev.jobs, j.Same (g j)) →
      Served c s { s with
        dev := { s.dev with jobs := s.dev.jobs.map g, lastRun := some m.id }
        worker := .running m.id s.now c }
  /-- a segment ends -/
  | finished (m : Job) (started : ℕ) : s.worker = .running m.id started c →
      s.now = started + c → m ∈ s.dev.jobs → m.Pickable →
      Served c s { s with dev := account s.dev m.id c s.now, worker := .boundary }

/-- What a submission does. -/
structure Pushed (s s' : Sys) (x : Job) : Prop where
  now : s'.now = s.now
  jobs : s'.dev.jobs = s.dev.jobs ++ [x]
  nextId : s'.dev.nextId = s.dev.nextId + 1
  cost : s'.dev.usPerSegment = s.dev.usPerSegment
  id : x.id = s.dev.nextId
  done : x.doneSegments = 0
  worker : s'.worker = s.worker.wake ∨ s'.worker = s.worker ∧ x.state = .refused

section

variable {c : ℕ} {s s' : Sys} {a : Act} {x j m n : Job}

theorem Valid.nodup (h : Valid c s) : (s.dev.jobs.map Job.id).Nodup :=
  List.pairwise_map.mpr (h.ids.imp fun hlt => Nat.ne_of_lt hlt)

theorem Valid.eq_of_id (h : Valid c s) (hj : j ∈ s.dev.jobs) (hm : m ∈ s.dev.jobs)
    (hid : j.id = m.id) : j = m :=
  List.inj_on_of_nodup_map h.nodup hj hm hid

theorem served (h : Valid c s) (ha : Serving s a) (hs : s.step a = some s') : Served c s s' := by
  cases a with
  | submit owner qos segments deadlineIn energyBudgetUj => exact ha.elim
  | choose len =>
    have hlen : len = c := ha.trans h.cost
    subst hlen
    cases hw : s.worker with
    | boundary =>
      cases hc : choose s.dev with
      | mk r dev =>
        cases r with
        | some id =>
          simp only [Sys.step, hw, hc, Option.some.injEq] at hs
          obtain ⟨m, hm, rfl, hp, hfirst, hdev, g, hg, hsame⟩ := choose_some h.ids hc
          rw [← hs, hdev, hg]
          exact .chosen m g hw hm hp hfirst hsame
        | none =>
          simp only [Sys.step, hw, hc, Option.some.injEq] at hs
          obtain ⟨rfl, hnone⟩ := choose_none h.ids hc
          rw [← hs]
          exact .slept hw hnone
    | _ =>
      simp only [Sys.step, hw] at hs
      cases hs
  | tick us =>
    cases hw : s.worker with
    | boundary =>
      simp only [Sys.step, hw] at hs
      cases hs
    | blocked =>
      simp only [Sys.step, hw, Option.some.injEq] at hs
      rw [← hs, ← hw]
      exact .idle us hw
    | running id started len =>
      obtain ⟨rfl, -⟩ := h.running id started len hw
      simp only [Sys.step, hw] at hs
      obtain ⟨hle, hs⟩ := Option.ite_none_right_eq_some.mp hs
      rw [← Option.some.inj hs, ← hw]
      exact .passed us id started hw hle
  | finish =>
    cases hw : s.worker with
    | running id started len =>
      obtain ⟨rfl, -, -, m, hm, rfl, hp⟩ := h.running id started len hw
      simp only [Sys.step, hw] at hs
      obtain ⟨hend, hs⟩ := Option.ite_none_right_eq_some.mp hs
      rw [← Option.some.inj hs]
      have helapsed : s.now - started = len := by omega
      rw [helapsed]
      exact .finished m started hw hend hm hp
    | _ =>
      simp only [Sys.step, hw] at hs
      cases hs

/-- A job with the next id is put after the others. -/
theorem pushed_push (s : Sys) {r : Except Reject ℕ} (hid : x.id = s.dev.nextId)
    (hdone : x.doneSegments = 0)
    (hr : (∃ id, r = .ok id) ∨ (∃ e, r = .error e) ∧ x.state = .refused) :
    Pushed s (s.submitted (r, push (temperatureLocked s.dev s.now) x)) x := by
  refine ⟨rfl, ?_, ?_, ?_, hid, hdone, ?_⟩
  · show (temperatureLocked s.dev s.now).jobs ++ _ = _
    rw [temperatureLocked_eq]
  · show (temperatureLocked s.dev s.now).nextId + 1 = _
    rw [temperatureLocked_eq]
  · show (temperatureLocked s.dev s.now).usPerSegment = _
    rw [temperatureLocked_eq]
  · rcases hr with ⟨id, rfl⟩ | ⟨⟨e, rfl⟩, hrefused⟩
    · exact .inl rfl
    · exact .inr ⟨rfl, hrefused⟩

theorem pushed {owner : ℕ} {qos : Qos} {segments : ℕ} {deadlineIn budget : Option ℕ}
    (hs : s.step (.submit owner qos segments deadlineIn budget) = some s') :
    ∃ x, Pushed s s' x ∧ x.deadlineUs = deadlineIn.map (s.now + ·) ∧ x.qos = qos ∧
      (x.state = .refused ∨
      x = newJob s.dev.nextId owner qos segments deadlineIn s.now budget .queued "" ∧
      ∀ window, deadlineIn = some window →
        segments * s.dev.usPerSegment + ahead s.dev.jobs qos s.dev.usPerSegment ≤ window) := by
  rw [Sys.step, Option.some.injEq] at hs
  subst hs
  rcases submit_cases s.dev s.now owner qos segments deadlineIn budget with
    ⟨e, why, heq⟩ | ⟨heq, hfits⟩
  · rw [heq]
    exact ⟨_, pushed_push s rfl rfl (.inr ⟨⟨e, rfl⟩, rfl⟩), rfl, rfl, .inl rfl⟩
  · rw [heq]
    exact ⟨_, pushed_push s rfl rfl (.inl ⟨_, rfl⟩), rfl, rfl, .inr ⟨rfl, hfits⟩⟩

/-- A step that changes the jobs one by one. -/
theorem Valid.map (h : Valid c s) {g : Job → Job} (hjobs : s'.dev.jobs = s.dev.jobs.map g)
    (hg : ∀ j ∈ s.dev.jobs, (g j).id = j.id ∧ (g j).doneSegments ≤ (g j).segments)
    (hnext : s'.dev.nextId = s.dev.nextId) (hcost : s'.dev.usPerSegment = c)
    (hrunning : ∀ id started len, s'.worker = .running id started len →
      len = c ∧ started ≤ s'.now ∧ s'.now ≤ started + len ∧
        ∃ m ∈ s'.dev.jobs, m.id = id ∧ m.Pickable)
    (hblocked : s'.worker = .blocked → ∀ j ∈ s'.dev.jobs, ¬j.Pickable) : Valid c s' := by
  refine ⟨?_, ?_, hcost, ?_, hrunning, hblocked⟩
  · rw [hjobs, List.pairwise_map]
    refine h.ids.imp_of_mem fun {i j} hi hj hlt => ?_
    rwa [(hg i hi).1, (hg j hj).1]
  · rw [hjobs, hnext]
    intro j hj
    obtain ⟨i, hi, rfl⟩ := List.mem_map.mp hj
    rw [(hg i hi).1]
    exact h.below i hi
  · rw [hjobs]
    intro j hj
    obtain ⟨i, hi, rfl⟩ := List.mem_map.mp hj
    exact (hg i hi).2

/-- The jobs after a segment. -/
theorem Valid.jobs_finished (h : Valid c s) (m : Job) :
    (account s.dev m.id c s.now).jobs =
      s.dev.jobs.map fun j => if j.id = m.id then j.segmentDone c s.now else j := by
  rw [jobs_account, updateJob_eq_map h.nodup]

theorem done_le_segmentDone (hp : j.Pickable) (elapsed now : ℕ) :
    (j.segmentDone elapsed now).doneSegments ≤ (j.segmentDone elapsed now).segments := by
  have hlt := hp.2
  unfold Job.segmentDone
  dsimp only
  split_ifs
  · exact hlt
  · exact hlt
  · exact hlt

theorem Valid.served (h : Valid c s) (hs : Served c s s') : Valid c s' := by
  cases hs with
  | idle us hw =>
    refine ⟨h.ids, h.below, h.cost, h.done_le, fun id started len hrun => ?_, h.blocked⟩
    exact absurd (hw.symm.trans hrun) nofun
  | passed us id started hw hle =>
    refine ⟨h.ids, h.below, h.cost, h.done_le, fun id' started' len hrun => ?_, h.blocked⟩
    obtain ⟨hlen, hfrom, -, hjob⟩ := h.running id' started' len hrun
    cases hw.symm.trans hrun
    exact ⟨hlen, hfrom.trans (Nat.le_add_right _ _), hle, hjob⟩
  | slept hw hnone =>
    exact ⟨h.ids, h.below, h.cost, h.done_le, nofun, fun _ => hnone⟩
  | chosen m g hw hm hp hfirst hsame =>
    refine h.map (g := g) rfl (fun j hj => ⟨(hsame j hj).id_eq, ?_⟩) rfl h.cost ?_ nofun
    · rw [(hsame j hj).fields]
      exact h.done_le j hj
    · rintro id started len ⟨⟩
      exact ⟨rfl, Nat.le_refl _, Nat.le_add_right _ _, g m, List.mem_map_of_mem hm,
        (hsame m hm).id_eq, (hsame m hm).pickable.mpr hp⟩
  | finished m started hw hend hm hp =>
    refine h.map (h.jobs_finished m) (fun j hj => ?_) (nextId_account ..) ?_ nofun nofun
    · by_cases hid : j.id = m.id
      · rw [if_pos hid]
        obtain rfl := h.eq_of_id hj hm hid
        exact ⟨id_segmentDone .., done_le_segmentDone hp ..⟩
      · rw [if_neg hid]
        exact ⟨rfl, h.done_le j hj⟩
    · show (account s.dev m.id c s.now).usPerSegment = c
      rw [usPerSegment_account, h.cost]
      omega

theorem Valid.pushed (h : Valid c s) (hs : Pushed s s' x) : Valid c s' := by
  have hwake : ∀ id started len, s'.worker = .running id started len →
      s.worker = .running id started len := by
    intro id started len hrun
    rcases hs.worker with hw | ⟨hw, -⟩
    · rw [hrun] at hw
      cases hold : s.worker with
      | blocked =>
        rw [hold] at hw
        cases hw
      | _ =>
        rw [hold] at hw
        exact hw.symm
    · exact hw.symm.trans hrun
  refine ⟨?_, ?_, hs.cost.trans h.cost, ?_, fun id started len hrun => ?_, fun hb j hj => ?_⟩
  · rw [hs.jobs]
    refine List.pairwise_append.mpr ⟨h.ids, List.pairwise_singleton _ _, fun j hj y hy => ?_⟩
    rw [List.mem_singleton.mp hy, hs.id]
    exact h.below j hj
  · rw [hs.jobs, hs.nextId]
    intro j hj
    rcases List.mem_append.mp hj with hj | hj
    · exact Nat.lt_succ_of_lt (h.below j hj)
    · rw [List.mem_singleton.mp hj, hs.id]
      exact Nat.lt_succ_self _
  · rw [hs.jobs]
    intro j hj
    rcases List.mem_append.mp hj with hj | hj
    · exact h.done_le j hj
    · rw [List.mem_singleton.mp hj, hs.done]
      exact Nat.zero_le _
  · obtain ⟨hlen, hfrom, hto, m, hm, hid, hp⟩ := h.running id started len (hwake _ _ _ hrun)
    rw [hs.now, hs.jobs]
    exact ⟨hlen, hfrom, hto, m, List.mem_append_left _ hm, hid, hp⟩
  · rcases hs.worker with hw | ⟨hw, hrefused⟩
    · -- an admitted job wakes the worker
      rw [hb] at hw
      cases hold : s.worker <;> rw [hold] at hw <;> cases hw
    · rw [hs.jobs] at hj
      rcases List.mem_append.mp hj with hj | hj
      · exact h.blocked (hw.symm.trans hb) j hj
      · rw [List.mem_singleton.mp hj]
        rintro ⟨hl | hl, -⟩ <;> rw [hrefused] at hl <;> cases hl

/-! ## The time at which a job is finished -/

/-- What becomes of a job in a step of the worker. -/
inductive Next (s s' : Sys) (n n' : Job) : Prop
  | same : n.Same n' → Next s s' n n'
  | ran (c started : ℕ) : s.worker = .running n.id started c → s.now = started + c →
      s'.worker = .boundary → n.Pickable → n' = n.segmentDone c s.now → Next s s' n n'

theorem Served.next (h : Valid c s) (hs : Served c s s') :
    ∃ g : Job → Job, s'.dev.jobs = s.dev.jobs.map g ∧ ∀ n ∈ s.dev.jobs, Next s s' n (g n) := by
  have hnone : ∀ s', s.dev.jobs = s.dev.jobs.map (fun j => j) ∧ ∀ n ∈ s.dev.jobs, Next s s' n n :=
    fun _ => ⟨(List.map_id' _).symm, fun n _ => .same (.refl n)⟩
  cases hs with
  | idle us hw => exact ⟨_, hnone _⟩
  | passed us id started hw hle => exact ⟨_, hnone _⟩
  | slept hw hno => exact ⟨_, hnone _⟩
  | chosen m g hw hm hp hfirst hsame => exact ⟨g, rfl, fun n hn => .same (hsame n hn)⟩
  | finished m started hw hend hm hp =>
    refine ⟨_, h.jobs_finished m, fun n hn => ?_⟩
    by_cases hid : n.id = m.id
    · rw [if_pos hid]
      obtain rfl := h.eq_of_id hn hm hid
      exact .ran c started hw hend rfl hp rfl
    · rw [if_neg hid]
      exact .same (.refl n)

theorem Next.id_eq {n' : Job} (h : Next s s' n n') : n'.id = n.id := by
  cases h with
  | same h => exact h.id_eq
  | ran c started _ _ _ _ heq =>
    rw [heq]
    exact id_segmentDone ..

theorem Next.rank {n' : Job} (h : Next s s' n n') : n'.rank = n.rank := by
  cases h with
  | same h => exact h.rank
  | ran c started _ _ _ _ heq =>
    rw [heq]
    exact rank_segmentDone ..

theorem Next.qos_eq {n' : Job} (h : Next s s' n n') : n'.qos = n.qos := by
  cases h with
  | same h => rw [h.fields]
  | ran c started _ _ _ _ heq =>
    rw [heq]
    unfold Job.segmentDone
    dsimp only
    split_ifs <;> rfl

/-- A job is cut short only when its budget is spent. -/
theorem Next.spent {n' : Job} (h : Next s s' n n')
    (hn : n.state = .overBudget → SpentOut n.energyBudgetUj n.energyUj)
    (hover : n'.state = .overBudget) : SpentOut n'.energyBudgetUj n'.energyUj := by
  cases h with
  | same h =>
    rcases h.state with hs | ⟨-, hs⟩
    · rw [h.fields]
      exact hn (hs.symm.trans hover)
    · cases hs.symm.trans hover
  | ran c started _ _ _ hp heq =>
    rw [heq] at hover ⊢
    unfold Job.segmentDone at hover ⊢
    dsimp only at hover ⊢
    split_ifs at hover ⊢ with hdone hspent
    · exact hspent
    · rcases hp.1 with hl | hl <;> cases hl.symm.trans hover

variable {r : (ℕ ×ₗ ℕ) ×ₗ ℕ}

theorem Valid.inProgress_le (h : Valid c s) : s.inProgress r ≤ total c s.dev.jobs r := by
  unfold Sys.inProgress
  cases hw : s.worker with
  | running id started len =>
    obtain ⟨-, -, -, m, hm, rfl, hp⟩ := h.running id started len hw
    dsimp only
    by_cases hr : ∃ j ∈ s.dev.jobs, j.id = m.id ∧ j.rank ≤ r
    · rw [if_pos hr]
      obtain ⟨j, hj, hid, hjr⟩ := hr
      obtain rfl := h.eq_of_id hj hm hid
      exact (todo_pos hp).trans_le (le_total hj hjr)
    · rw [if_neg hr]
      exact Nat.zero_le _
  | _ => exact Nat.zero_le _

theorem Valid.inProgress_running (h : Valid c s) {started : ℕ} (hm : m ∈ s.dev.jobs)
    (hw : s.worker = .running m.id started c) :
    s.inProgress r = if m.rank ≤ r then 1 else 0 := by
  have hiff : (∃ j ∈ s.dev.jobs, j.id = m.id ∧ j.rank ≤ r) ↔ m.rank ≤ r := by
    constructor
    · rintro ⟨j, hj, hid, hr⟩
      obtain rfl := h.eq_of_id hj hm hid
      exact hr
    · exact fun hr => ⟨m, hm, rfl, hr⟩
  simp only [Sys.inProgress, hw, hiff]

/-- A step of the worker does not change the time at which the work up to a place is finished,
where a job of that place has a segment to run. -/
theorem finishAt_served (h : Valid c s) (hs : Served c s s') (hn : n ∈ s.dev.jobs)
    (hp : n.Pickable) : s'.finishAt c n.rank = s.finishAt c n.rank := by
  cases hs with
  | idle us hw => exact absurd hp (h.blocked hw n hn)
  | passed us id started hw hle =>
    have hrest : s.rest = started + c - s.now := by simp only [Sys.rest, hw]
    have hrest' : ({ s with now := s.now + us } : Sys).rest = started + c - (s.now + us) := by
      simp only [Sys.rest, hw]
    have hsame : ({ s with now := s.now + us } : Sys).inProgress n.rank = s.inProgress n.rank := rfl
    unfold Sys.finishAt
    rw [hrest, hrest', hsame]
    dsimp only
    omega
  | slept hw hnone => exact absurd hp (hnone n hn)
  | chosen m g hw hm hmp hfirst hsame =>
    have hle : m.rank ≤ n.rank := hfirst n hn hp
    have hpos : 0 < total c s.dev.jobs n.rank := (todo_pos hmp).trans_le (le_total hm hle)
    have hvalid := h.served (.chosen m g hw hm hmp hfirst hsame)
    have hworker : Worker.running m.id s.now c = .running (g m).id s.now c := by
      rw [(hsame m hm).id_eq]
    have hprog' := hvalid.inProgress_running (r := n.rank) (List.mem_map_of_mem hm) hworker
    rw [(hsame m hm).rank, if_pos hle] at hprog'
    have hprog : s.inProgress n.rank = 0 := by simp only [Sys.inProgress, hw]
    have hrest : s.rest = 0 := by simp only [Sys.rest, hw]
    unfold Sys.finishAt
    rw [hprog, hprog', hrest]
    show s.now + (s.now + c - s.now) + (total c (s.dev.jobs.map g) n.rank - 1) * c = _
    rw [total_map hsame, Nat.add_sub_cancel_left]
    obtain ⟨k, hk⟩ : ∃ k, total c s.dev.jobs n.rank = k + 1 :=
      ⟨total c s.dev.jobs n.rank - 1, by omega⟩
    rw [hk, Nat.add_sub_cancel, Nat.sub_zero, Nat.succ_mul]
    omega
  | finished m started hw hend hm hmp =>
    have hprog := h.inProgress_running (r := n.rank) hm hw
    have hrest : s.rest = 0 := by
      simp only [Sys.rest, hw]
      omega
    have htotal := total_segmentDone (c := c) (r := n.rank) h.nodup hm hmp s.now
    rw [← jobs_account] at htotal
    unfold Sys.finishAt
    rw [hprog, hrest, ← htotal, Nat.add_sub_cancel]
    rfl

/-- A submission adds its job to the work after it, and changes nothing else. -/
theorem finishAt_pushed (h : Valid c s) (hs : Pushed s s' x) :
    s'.finishAt c r = s.finishAt c r + (if x.rank ≤ r then x.todo c else 0) * c := by
  have hrest : s'.rest = s.rest := by
    unfold Sys.rest
    rw [hs.now]
    rcases hs.worker with hw | ⟨hw, -⟩
    · rw [hw]
      cases s.worker <;> rfl
    · rw [hw]
  have hprog : s'.inProgress r = s.inProgress r := by
    unfold Sys.inProgress
    have hwake : s'.worker = s.worker ∨ s'.worker = s.worker.wake :=
      hs.worker.symm.imp_left And.left
    cases hw : s.worker with
    | running id started len =>
      have hw' : s'.worker = .running id started len := by
        rw [hw] at hwake
        exact hwake.elim (fun hw => hw) fun hw => hw
      obtain ⟨-, -, -, m, hm, hid, -⟩ := h.running id started len hw
      have hne : x.id ≠ id := by
        rw [hs.id, ← hid]
        exact Nat.ne_of_gt (h.below m hm)
      rw [hw']
      dsimp only
      rw [hs.jobs]
      have hiff : (∃ j ∈ s.dev.jobs ++ [x], j.id = id ∧ j.rank ≤ r) ↔
          ∃ j ∈ s.dev.jobs, j.id = id ∧ j.rank ≤ r := by
        constructor
        · rintro ⟨j, hj, hjid, hr⟩
          rcases List.mem_append.mp hj with hj | hj
          · exact ⟨j, hj, hjid, hr⟩
          · exact absurd (List.mem_singleton.mp hj ▸ hjid) hne
        · rintro ⟨j, hj, hjid, hr⟩
          exact ⟨j, List.mem_append_left _ hj, hjid, hr⟩
      simp only [hiff]
    | _ =>
      rw [hw] at hwake
      rcases hwake with hw' | hw' <;> simp only [hw', Worker.wake]
  have hle := h.inProgress_le (r := r)
  unfold Sys.finishAt
  rw [hrest, hprog, hs.now, hs.jobs, total_append, Nat.sub_add_comm hle, Nat.add_mul,
    Nat.add_assoc, Nat.add_assoc, Nat.add_assoc]

/-! ## The end of a job -/

/-- Reached by the worker alone. -/
abbrev Sys.Serves (s t : Sys) : Prop := Run.Reachable Sys.step Serving (· = s) t

theorem Sys.Serves.trans {t u : Sys} (h : s.Serves t) (h' : t.Serves u) : s.Serves u := by
  induction h' with
  | start heq =>
    rw [heq]
    exact h
  | next _ ha hs ih => exact .next ih ha hs

theorem Sys.Serves.step (ha : Serving s a) (hs : s.step a = some s') : s.Serves s' :=
  .next (.start rfl) ha hs

/-- The device is done with job `id`. -/
def Sys.Ended (s : Sys) (id : ℕ) : Prop := ∃ j ∈ s.dev.jobs, j.id = id ∧ j.Ended

/-- The job runs to the end of its segment: it is over, or the worker is free for the next one. -/
theorem finish_segment (h : Valid c s) {id started len : ℕ} (hw : s.worker = .running id started len)
    (hn : n ∈ s.dev.jobs) (hp : n.Pickable) :
    ∃ t, s.Serves t ∧ (t.Ended n.id ∨ Valid c t ∧ t.worker = .boundary ∧
      ∃ n' ∈ t.dev.jobs, n'.id = n.id ∧ n'.rank = n.rank ∧ n'.Pickable ∧
        ∀ m ∈ s.dev.jobs, m.id = id → total c t.dev.jobs n.rank + (if m.rank ≤ n.rank then 1 else 0) =
          total c s.dev.jobs n.rank) := by
  obtain ⟨rfl, hfrom, hto, m, hm, rfl, hmp⟩ := h.running id started len hw
  -- time passes until the end of the segment
  have htick : s.step (.tick (started + len - s.now)) = some { s with now := started + len } := by
    have hnow : s.now + (started + len - s.now) = started + len := by omega
    simp only [Sys.step, hw, hnow, Nat.le_refl, if_true]
  let u : Sys := { s with now := started + len }
  have hticks : Serving s (.tick (started + len - s.now)) := trivial
  have hfinishes : Serving u .finish := trivial
  have hu : Valid len u := h.served (served h hticks htick)
  have hfinish : u.step .finish =
      some { u with dev := account u.dev m.id len u.now, worker := .boundary } := by
    have helapsed : started + len - started = len := Nat.add_sub_cancel_left ..
    have hwu : u.worker = .running m.id started len := hw
    have hnow : u.now = started + len := rfl
    simp only [Sys.step, hwu, hnow, if_true, helapsed]
  have hserved := served hu hfinishes hfinish
  refine ⟨_, (Sys.Serves.step hticks htick).trans (.step hfinishes hfinish), ?_⟩
  obtain ⟨g, hg, hnext⟩ := hserved.next hu
  have hn' : g n ∈ (account u.dev m.id len u.now).jobs := hg ▸ List.mem_map_of_mem hn
  have hnext : Next u _ n (g n) := hnext n hn
  generalize g n = n' at hn' hnext
  have hdone : n'.Ended ∨ n'.Pickable := by
    cases hnext with
    | same hsame => exact .inr (hsame.pickable.mpr hp)
    | ran c' started' hw' hend hb hp heq =>
      rw [heq]
      rcases (segmentDone_cases (c := c') hp u.now).2 with hp' | ⟨hended, -⟩
      · exact .inr hp'
      · exact .inl hended
  rcases hdone with hended | hp'
  · exact .inl ⟨n', hn', hnext.id_eq, hended⟩
  · refine .inr ⟨hu.served hserved, rfl, n', hn', hnext.id_eq, hnext.rank, hp', ?_⟩
    intro x hx hid
    obtain rfl := h.eq_of_id hx hm hid
    have htotal := total_segmentDone (c := len) (r := n.rank) h.nodup hm hmp u.now
    rwa [← jobs_account] at htotal

/-- At a boundary the worker starts a segment of a job that is not after `n`. -/
theorem start_segment (h : Valid c s) (hw : s.worker = .boundary) (hn : n ∈ s.dev.jobs)
    (hp : n.Pickable) :
    ∃ t, s.Serves t ∧ Valid c t ∧ total c t.dev.jobs n.rank = total c s.dev.jobs n.rank ∧
      (∃ m ∈ t.dev.jobs, m.rank ≤ n.rank ∧ t.worker = .running m.id s.now c) ∧
      ∃ n' ∈ t.dev.jobs, n'.id = n.id ∧ n'.rank = n.rank ∧ n'.Pickable := by
  cases hc : choose s.dev with
  | mk r dev =>
    cases r with
    | none => exact absurd hp ((choose_none h.ids hc).2 n hn)
    | some id =>
      have hstep : s.step (.choose s.dev.usPerSegment) =
          some { s with dev := dev, worker := .running id s.now s.dev.usPerSegment } := by
        simp only [Sys.step, hw, hc]
      have hchooses : Serving s (.choose s.dev.usPerSegment) := rfl
      obtain ⟨m, hm, rfl, hmp, hfirst, hdev, g, hg, hsame⟩ := choose_some h.ids hc
      refine ⟨_, .step hchooses hstep, h.served (served h hchooses hstep), ?_, ⟨g m, ?_, ?_, ?_⟩,
        g n, ?_, (hsame n hn).id_eq, (hsame n hn).rank, (hsame n hn).pickable.mpr hp⟩
      · show total c dev.jobs n.rank = _
        rw [hg, total_map hsame]
      · exact hg.symm ▸ List.mem_map_of_mem hm
      · rw [(hsame m hm).rank]
        exact hfirst n hn hp
      · rw [(hsame m hm).id_eq, h.cost]
      · exact hg.symm ▸ List.mem_map_of_mem hn

/-- From a boundary the worker finishes every job; each of its segments lessens the work. -/
theorem ends_of_boundary (k : ℕ) : ∀ {s : Sys} {n : Job}, Valid c s → s.worker = .boundary →
    n ∈ s.dev.jobs → n.Pickable → total c s.dev.jobs n.rank = k → ∃ t, s.Serves t ∧ t.Ended n.id := by
  induction k with
  | zero =>
    intro s n _ _ hn hp htotal
    have hpos := (todo_pos (c := c) hp).trans_le (le_total hn le_rfl)
    omega
  | succ k ih =>
    intro s n h hw hn hp htotal
    obtain ⟨u, hsu, hu, hsame, ⟨m, hm, hle, hwu⟩, n', hn', hid, hrank, hp'⟩ :=
      start_segment h hw hn hp
    obtain ⟨t, hut, hended | ⟨ht, hwt, n'', hn'', hid', hrank', hp'', hless⟩⟩ :=
      finish_segment hu hwu hn' hp'
    · exact ⟨t, hsu.trans hut, hid ▸ hended⟩
    · have hless := hless m hm rfl
      rw [hrank, if_pos hle, hsame, htotal] at hless
      obtain ⟨v, htv, hended⟩ := ih ht hwt hn'' hp'' (by rw [hrank', hrank]; omega)
      rw [hid', hid] at hended
      exact ⟨v, hsu.trans (hut.trans htv), hended⟩

/-- The worker finishes every job that has a segment to run. -/
theorem ends (h : Valid c s) (hn : n ∈ s.dev.jobs) (hp : n.Pickable) :
    ∃ t, s.Serves t ∧ t.Ended n.id := by
  cases hw : s.worker with
  | boundary => exact ends_of_boundary _ h hw hn hp rfl
  | blocked => exact absurd hp (h.blocked hw n hn)
  | running id started len =>
    obtain ⟨t, hst, hended | ⟨ht, hwt, n', hn', hid, -, hp', -⟩⟩ := finish_segment h hw hn hp
    · exact ⟨t, hst, hended⟩
    · obtain ⟨u, htu, hended⟩ := ends_of_boundary _ ht hwt hn' hp' rfl
      rw [hid] at hended
      exact ⟨u, hst.trans htu, hended⟩

end

end JungeyOs.Tensor
