import JungeyOs.Lib.Run
import JungeyOs.Tensor.Device

/-!
# What the accelerator records of its work

The worker of `kernel/src/tensor.rs`, lines 446–538, with jobs submitted at any time, and segments
that take any time. What the worker does under the lock before a segment, the segment, and what it
does under the lock after it are steps of their own. Sums do not wrap around.

Results:
* `Inv.step`: every step keeps what holds of the jobs and of the totals.
* `final_step`: a job that has ended stays as it ended.
* `accounts_hold`: the counts of segments, times and energies in every run.
-/

namespace JungeyOs.Tensor

/-! ## The system -/

/-- Where the worker stands. -/
inductive Stage
  | choosing
  | asleep
  | running (id : ℕ)

/-- The device, `PREEMPTIONS` (line 207) and the worker. The rest is only watched, newest first: the
jobs as they were when their segments started, the segments that have run with the times they took,
and how often the device was taken from each job. -/
structure Ledger where
  dev : Device
  preempted : ℕ
  stage : Stage
  started : List Job
  ran : List (ℕ × ℕ)
  taken : ℕ → ℕ

/-- What the worker adds to `PREEMPTIONS` before a segment (lines 464–476). -/
def Device.preempts (dev : Device) : ℕ :=
  match pick dev.jobs, dev.lastRun with
  | some j, some prev =>
    if prev ≠ j.id ∧ ∃ p ∈ dev.jobs, p.id = prev ∧ p.doneSegments < p.segments then 1 else 0
  | _, _ => 0

namespace Ledger

/-- The job that the device is taken from: it ran last, it is queued or running with segments left,
and the segment that starts is of another. -/
def takes (s : Ledger) : Option ℕ :=
  match pick s.dev.jobs, s.ran with
  | some j, (prev, _) :: _ =>
    if prev ≠ j.id ∧ ∃ p ∈ s.dev.jobs, p.id = prev ∧ p.Pickable then some prev else none
  | _, _ => none

/-- `wake` is the wake-up of the worker; `finish elapsed now` ends a segment that took `elapsed`. -/
inductive Act
  | submit (now owner : ℕ) (qos : Qos) (segments : ℕ) (deadlineIn energyBudgetUj : Option ℕ)
  | wake
  | choose
  | finish (elapsed now : ℕ)

def step (s : Ledger) : Act → Option Ledger
  | .submit now owner qos segments deadlineIn energyBudgetUj =>
    some { s with
      dev := (submitWithBudget s.dev now owner qos segments deadlineIn energyBudgetUj).2 }
  | .wake =>
    match s.stage with
    | .asleep => some { s with stage := .choosing }
    | _ => none
  | .choose =>
    match s.stage with
    | .choosing => some
      { s with
        dev := (Tensor.choose s.dev).2
        preempted := s.preempted + s.dev.preempts
        stage := match (Tensor.choose s.dev).1 with
          | some id => .running id
          | none => .asleep
        started := (pick s.dev.jobs).toList ++ s.started
        taken := fun id => s.taken id + if s.takes = some id then 1 else 0 }
    | _ => none
  | .finish elapsed now =>
    match s.stage with
    | .running id => some
      { s with
        dev := account s.dev id elapsed now
        stage := .choosing
        ran := (id, elapsed) :: s.ran }
    | _ => none

/-- At boot. -/
structure Init (s : Ledger) : Prop where
  jobs : s.dev.jobs = []
  lastRun : s.dev.lastRun = none
  segmentsRun : s.dev.segmentsRun = 0
  preempted : s.preempted = 0
  stage : s.stage = .choosing
  started : s.started = []
  ran : s.ran = []
  taken : ∀ id, s.taken id = 0

/-- A job that is submitted has at least `low` segments. -/
def AtLeast (low : ℕ) (_ : Ledger) : Act → Prop
  | .submit _ _ _ segments _ _ => low ≤ segments
  | _ => True

/-- The times that the segments of a job took. -/
def times (s : Ledger) (id : ℕ) : List ℕ := s.ran.filterMap fun r => if r.1 = id then some r.2 else none

end Ledger

/-- The device is done with the job, or has refused it. -/
def Job.Final (j : Job) : Prop := j.state = .done ∨ j.state = .refused ∨ j.state = .overBudget

/-! ## The claim -/

namespace Ledger

structure Accounts (s : Ledger) : Prop where
  done_le : ∀ j ∈ s.dev.jobs, j.doneSegments ≤ j.segments
  segments_run : s.dev.segmentsRun = (s.dev.jobs.map Job.doneSegments).sum
  /-- every segment is one of one job -/
  once : ∀ r ∈ s.ran, ∃ j ∈ s.dev.jobs, j.id = r.1 ∧ ∀ i ∈ s.dev.jobs, i.id = r.1 → i = j
  count : ∀ j ∈ s.dev.jobs, j.doneSegments = (s.times j.id).length
  time : ∀ j ∈ s.dev.jobs, j.deviceUs = (s.times j.id).sum
  energy : ∀ j ∈ s.dev.jobs, j.energyUj = ((s.times j.id).map energyOf).sum
  done_iff : ∀ j ∈ s.dev.jobs, j.state = .done ↔ j.doneSegments = j.segments
  refused : ∀ j ∈ s.dev.jobs, j.state = .refused →
    (∀ i ∈ s.started, i.id ≠ j.id) ∧ ∀ r ∈ s.ran, r.1 ≠ j.id
  /-- before every segment of a job but its first, the job was below its budget -/
  budget : s.started.Pairwise fun j i => i.id = j.id → ∀ b ∈ j.energyBudgetUj, j.energyUj < b

end Ledger

/-! ## A job -/

/-- What the state of a job says about its segments and its energy. -/
def Job.Stands (j : Job) : Prop :=
  match j.state with
  | .done => j.doneSegments = j.segments
  | .refused => j.doneSegments = 0
  | .overBudget => j.doneSegments < j.segments
  | _ => (j.doneSegments < j.segments ∨ j.doneSegments = 0) ∧
    ∀ b ∈ j.energyBudgetUj, j.energyUj < b ∨ j.doneSegments = 0

section

variable {j j' : Job}

theorem stands_of_live (h : j.Live) : j.Stands ↔
    (j.doneSegments < j.segments ∨ j.doneSegments = 0) ∧
      ∀ b ∈ j.energyBudgetUj, j.energyUj < b ∨ j.doneSegments = 0 := by
  unfold Job.Stands
  rcases h with hs | hs <;> rw [hs]

theorem Job.Same.stands (h : j.Same j') (hs : j.Stands) : j'.Stands := by
  rcases h.state with hstate | ⟨hl, -⟩
  · have heq : j'.Stands = j.Stands := by
      unfold Job.Stands
      rw [h.fields, hstate]
    rwa [heq]
  · rw [stands_of_live (h.live.mpr hl), h.fields]
    exact (stands_of_live hl).mp hs

theorem stands_segmentDone (hp : j.Pickable) (elapsed now : ℕ) :
    (j.segmentDone elapsed now).Stands := by
  unfold Job.segmentDone
  dsimp only
  by_cases hdone : j.segments ≤ j.doneSegments + 1
  · rw [if_pos hdone]
    exact Nat.le_antisymm hp.2 hdone
  · rw [if_neg hdone]
    by_cases hspent : SpentOut j.energyBudgetUj (j.energyUj + energyOf elapsed)
    · rw [if_pos hspent]
      exact Nat.not_le.mp hdone
    · -- the job goes on, within its budget
      rw [if_neg hspent]
      refine (stands_of_live ?_).mpr ⟨.inl (Nat.not_le.mp hdone), fun b hb => .inl ?_⟩
      · exact hp.1
      · exact Nat.not_le.mp fun hle => hspent ⟨b, hb, hle⟩

theorem Job.Stands.done_le (h : j.Stands) : j.doneSegments ≤ j.segments := by
  unfold Job.Stands at h
  cases hs : j.state with
  | done => rw [hs] at h; exact h.le
  | refused => rw [hs] at h; exact h.symm ▸ Nat.zero_le _
  | overBudget => rw [hs] at h; exact h.le
  | queued => rw [hs] at h; exact h.1.elim Nat.le_of_lt fun heq => heq.symm ▸ Nat.zero_le _
  | running => rw [hs] at h; exact h.1.elim Nat.le_of_lt fun heq => heq.symm ▸ Nat.zero_le _

theorem Job.Stands.done_iff (h : j.Stands) (hpos : 0 < j.segments) :
    j.state = .done ↔ j.doneSegments = j.segments := by
  unfold Job.Stands at h
  cases hs : j.state with
  | done => rw [hs] at h; exact iff_of_true rfl h
  | refused => rw [hs] at h; exact iff_of_false nofun fun heq => by omega
  | overBudget => rw [hs] at h; exact iff_of_false nofun (Nat.ne_of_lt h)
  | queued => rw [hs] at h; exact iff_of_false nofun (by omega)
  | running => rw [hs] at h; exact iff_of_false nofun (by omega)

end

/-! ## The invariant -/

namespace Ledger

/-- The record of a job agrees with what was watched. -/
structure Recorded (low : ℕ) (s : Ledger) (j : Job) : Prop where
  low : low ≤ j.segments
  below : j.id < s.dev.nextId
  stands : j.Stands
  count : j.doneSegments = (s.times j.id).length
  time : j.deviceUs = (s.times j.id).sum
  energy : j.energyUj = ((s.times j.id).map energyOf).sum

/-- Every job has at least `low` segments. -/
structure Inv (low : ℕ) (s : Ledger) : Prop where
  ids : s.dev.jobs.Pairwise fun a b => a.id < b.id
  jobs : ∀ j ∈ s.dev.jobs, Recorded low s j
  segments_run : s.dev.segmentsRun = (s.dev.jobs.map Job.doneSegments).sum
  ran : ∀ r ∈ s.ran, ∃ j ∈ s.dev.jobs, j.id = r.1
  /-- a job that has started a segment has ended it, or the segment runs -/
  started : ∀ i ∈ s.started, ∃ j ∈ s.dev.jobs, j.id = i.id ∧
    (0 < j.doneSegments ∨ s.stage = .running j.id)
  budget : s.started.Pairwise fun j i => i.id = j.id → ∀ b ∈ j.energyBudgetUj, j.energyUj < b
  running : ∀ id, s.stage = .running id → ∃ m ∈ s.dev.jobs, m.id = id ∧ m.Pickable

section

variable {low : ℕ} {s s' : Ledger} {a : Act} {i j m x : Job}

theorem Inv.nodup (h : Inv low s) : (s.dev.jobs.map Job.id).Nodup :=
  List.pairwise_map.mpr (h.ids.imp fun hlt => Nat.ne_of_lt hlt)

theorem Inv.eq_of_id (h : Inv low s) (hi : i ∈ s.dev.jobs) (hj : j ∈ s.dev.jobs) (hid : i.id = j.id) :
    i = j :=
  List.inj_on_of_nodup_map h.nodup hi hj hid

/-- A job with no segments has no times. -/
theorem times_of_none {id : ℕ} (h : ∀ r ∈ s.ran, r.1 ≠ id) : s.times id = [] := by
  unfold times
  refine List.filterMap_eq_nil_iff.mpr fun r hr => ?_
  exact if_neg (h r hr)

theorem ne_of_times {id : ℕ} (h : (s.times id).length = 0) : ∀ r ∈ s.ran, r.1 ≠ id := by
  rintro r hr rfl
  have hmem : r.2 ∈ s.times r.1 := List.mem_filterMap.mpr ⟨r, hr, if_pos rfl⟩
  rw [List.eq_nil_of_length_eq_zero h] at hmem
  cases hmem

theorem Inv.accounts (h : Inv 1 s) : s.Accounts where
  done_le j hj := (h.jobs j hj).stands.done_le
  segments_run := h.segments_run
  once r hr := by
    obtain ⟨j, hj, hid⟩ := h.ran r hr
    exact ⟨j, hj, hid, fun i hi hi' => h.eq_of_id hi hj (hi'.trans hid.symm)⟩
  count j hj := (h.jobs j hj).count
  time j hj := (h.jobs j hj).time
  energy j hj := (h.jobs j hj).energy
  done_iff j hj := (h.jobs j hj).stands.done_iff (h.jobs j hj).low
  refused j hj hstate := by
    have hdone := (h.jobs j hj).stands
    unfold Job.Stands at hdone
    rw [hstate] at hdone
    refine ⟨fun i hi hid => ?_, ne_of_times ((h.jobs j hj).count.symm.trans hdone)⟩
    obtain ⟨k, hk, hki, hstart⟩ := h.started i hi
    obtain rfl := h.eq_of_id hk hj (hki.trans hid)
    rcases hstart with hpos | hrun
    · exact absurd hdone (Nat.ne_of_gt hpos)
    · obtain ⟨m, hm, hmid, hp⟩ := h.running _ hrun
      obtain rfl := h.eq_of_id hm hk hmid
      rcases hp.1 with hl | hl <;> rw [hstate] at hl <;> cases hl
  budget := h.budget

/-! ## Every step -/

/-- A submission adds a job that is queued, or refused. -/
theorem submitted_eq (dev : Device) (now owner : ℕ) (qos : Qos) (segments : ℕ)
    (deadlineIn budget : Option ℕ) : ∃ state why, (state = .queued ∨ state = .refused) ∧
      (submitWithBudget dev now owner qos segments deadlineIn budget).2 =
        push (temperatureLocked dev now)
          (newJob dev.nextId owner qos segments deadlineIn now budget state why) := by
  rcases submit_cases dev now owner qos segments deadlineIn budget with
    ⟨e, why, heq⟩ | ⟨heq, -⟩
  · exact ⟨.refused, why, .inr rfl, by rw [heq]⟩
  · exact ⟨.queued, "", .inl rfl, by rw [heq]⟩

theorem stands_newJob {id owner segments now : ℕ} {qos : Qos} {deadlineIn budget : Option ℕ}
    {state : JobState} {why : String} (hstate : state = .queued ∨ state = .refused) :
    (newJob id owner qos segments deadlineIn now budget state why).Stands := by
  rcases hstate with rfl | rfl
  · exact ⟨.inr rfl, fun b _ => .inr rfl⟩
  · exact rfl

/-- A job joins the others. -/
theorem Inv.push (h : Inv low s) (hjobs : s'.dev.jobs = s.dev.jobs ++ [x])
    (hnext : s'.dev.nextId = s.dev.nextId + 1) (hcount : s'.dev.segmentsRun = s.dev.segmentsRun)
    (hstage : s'.stage = s.stage) (hstarted : s'.started = s.started) (hran : s'.ran = s.ran)
    (hid : x.id = s.dev.nextId) (hlow : low ≤ x.segments) (hx : x.Stands) (hdone : x.doneSegments = 0)
    (htime : x.deviceUs = 0) (henergy : x.energyUj = 0) : Inv low s' := by
  have hold : ∀ j ∈ s.dev.jobs, j ∈ s'.dev.jobs := fun j hj => hjobs ▸ List.mem_append_left _ hj
  have htimes : ∀ id, s'.times id = s.times id := fun id => by
    unfold times
    rw [hran]
  have hnone : s.times x.id = [] := times_of_none fun r hr heq => by
    obtain ⟨j, hj, hjr⟩ := h.ran r hr
    exact absurd (h.jobs j hj).below (by rw [hjr, heq, hid]; exact Nat.lt_irrefl _)
  refine ⟨?_, fun j hj => ?_, ?_, ?_, ?_, hstarted ▸ h.budget, ?_⟩
  · rw [hjobs]
    refine List.pairwise_append.mpr ⟨h.ids, List.pairwise_singleton _ _, fun j hj y hy => ?_⟩
    rw [List.mem_singleton.mp hy, hid]
    exact (h.jobs j hj).below
  · rw [hjobs] at hj
    rcases List.mem_append.mp hj with hj | hj
    · obtain ⟨hlow, hbelow, hstands, hcount, htime, henergy⟩ := h.jobs j hj
      refine ⟨hlow, hnext ▸ Nat.lt_succ_of_lt hbelow, hstands, ?_, ?_, ?_⟩
      all_goals rwa [htimes]
    · rw [List.mem_singleton.mp hj]
      refine ⟨hlow, by rw [hnext, hid]; exact Nat.lt_succ_self _, hx, ?_, ?_, ?_⟩
      all_goals
        rw [htimes, hnone]
        assumption
  · rw [hcount, hjobs, h.segments_run, List.map_append, List.sum_append, List.map_singleton, hdone]
    rfl
  · rw [hran]
    intro r hr
    obtain ⟨j, hj, hjr⟩ := h.ran r hr
    exact ⟨j, hold j hj, hjr⟩
  · rw [hstarted, hstage]
    intro i hi
    obtain ⟨j, hj, hji⟩ := h.started i hi
    exact ⟨j, hold j hj, hji⟩
  · rw [hstage]
    intro id hrun
    obtain ⟨m, hm, hmid⟩ := h.running id hrun
    exact ⟨m, hold m hm, hmid⟩

/-- A segment starts. -/
theorem Inv.start (h : Inv low s) {g : Job → Job} (hchoosing : s.stage = .choosing)
    (hm : m ∈ s.dev.jobs) (hp : m.Pickable) (hjobs : s'.dev.jobs = s.dev.jobs.map g)
    (hg : ∀ j ∈ s.dev.jobs, j.Same (g j)) (hnext : s'.dev.nextId = s.dev.nextId)
    (hcount : s'.dev.segmentsRun = s.dev.segmentsRun) (hstage : s'.stage = .running m.id)
    (hstarted : s'.started = m :: s.started) (hran : s'.ran = s.ran) : Inv low s' := by
  have hold : ∀ j ∈ s.dev.jobs, ∃ j' ∈ s'.dev.jobs, j.Same j' := fun j hj =>
    ⟨g j, hjobs ▸ List.mem_map_of_mem hj, hg j hj⟩
  have htimes : ∀ id, s'.times id = s.times id := fun id => by
    unfold times
    rw [hran]
  refine ⟨?_, fun j hj => ?_, ?_, ?_, ?_, ?_, ?_⟩
  · rw [hjobs, List.pairwise_map]
    refine h.ids.imp_of_mem fun {i j} hi hj hlt => ?_
    rwa [(hg i hi).id_eq, (hg j hj).id_eq]
  · rw [hjobs] at hj
    obtain ⟨i, hi, rfl⟩ := List.mem_map.mp hj
    obtain ⟨hlow, hbelow, hstands, hcount, htime, henergy⟩ := h.jobs i hi
    have hstands' := (hg i hi).stands hstands
    rw [(hg i hi).fields] at hstands' ⊢
    refine ⟨hlow, hnext ▸ hbelow, hstands', ?_, ?_, ?_⟩
    all_goals rwa [htimes]
  · rw [hcount, hjobs, h.segments_run, List.map_map]
    refine congrArg List.sum (List.map_congr_left fun j hj => ?_)
    show j.doneSegments = (g j).doneSegments
    rw [(hg j hj).fields]
  · rw [hran]
    intro r hr
    obtain ⟨j, hj, hjr⟩ := h.ran r hr
    obtain ⟨j', hj', hsame⟩ := hold j hj
    exact ⟨j', hj', hsame.id_eq.trans hjr⟩
  · rw [hstarted, hstage]
    intro i hi
    rcases List.mem_cons.mp hi with rfl | hi
    · obtain ⟨j', hj', hsame⟩ := hold i hm
      exact ⟨j', hj', hsame.id_eq, .inr (by rw [hsame.id_eq])⟩
    · obtain ⟨j, hj, hji, hstart⟩ := h.started i hi
      obtain ⟨j', hj', hsame⟩ := hold j hj
      refine ⟨j', hj', hsame.id_eq.trans hji, .inl ?_⟩
      rcases hstart with hpos | hrun
      · rw [hsame.fields]
        exact hpos
      · exact absurd (hchoosing.symm.trans hrun) nofun
  · rw [hstarted]
    refine List.pairwise_cons.mpr ⟨fun i hi hid b hb => ?_, h.budget⟩
    -- the job has run a segment, and it goes on
    obtain ⟨j, hj, hji, hstart⟩ := h.started i hi
    obtain rfl := h.eq_of_id hj hm (hji.trans hid)
    have hwithin := ((stands_of_live hp.1).mp (h.jobs j hj).stands).2 b hb
    rcases hstart with hpos | hrun
    · exact hwithin.resolve_right (Nat.ne_of_gt hpos)
    · exact absurd (hchoosing.symm.trans hrun) nofun
  · rw [hstage]
    rintro id ⟨⟩
    obtain ⟨j', hj', hsame⟩ := hold m hm
    exact ⟨j', hj', hsame.id_eq, hsame.pickable.mpr hp⟩

/-- The jobs after a segment. -/
theorem Inv.jobs_account (h : Inv low s) (id elapsed now : ℕ) : (account s.dev id elapsed now).jobs =
    s.dev.jobs.map fun j => if j.id = id then j.segmentDone elapsed now else j := by
  rw [Tensor.jobs_account, updateJob_eq_map h.nodup]

theorem segmentsRun_account (dev : Device) (id elapsed now : ℕ) :
    (account dev id elapsed now).segmentsRun = dev.segmentsRun + 1 := by
  unfold account
  dsimp only
  rw [temperatureLocked_eq]

/-- A segment ends. -/
theorem Inv.finish (h : Inv low s) {elapsed now : ℕ} (hrun : s.stage = .running m.id)
    (hm : m ∈ s.dev.jobs) (hp : m.Pickable) (hdev : s'.dev = account s.dev m.id elapsed now)
    (hstage : s'.stage = .choosing) (hstarted : s'.started = s.started)
    (hran : s'.ran = (m.id, elapsed) :: s.ran) : Inv low s' := by
  have hjobs := h.jobs_account m.id elapsed now
  rw [← hdev] at hjobs
  have hother : ∀ j ∈ s.dev.jobs, j.id ≠ m.id → j ∈ s'.dev.jobs := fun j hj hne => by
    rw [hjobs]
    exact List.mem_map.mpr ⟨j, hj, if_neg hne⟩
  have hself : m.segmentDone elapsed now ∈ s'.dev.jobs := by
    rw [hjobs]
    exact List.mem_map.mpr ⟨m, hm, if_pos rfl⟩
  have hid := id_segmentDone m elapsed now
  have htimes : s'.times m.id = elapsed :: s.times m.id := by
    unfold times
    rw [hran]
    exact List.filterMap_cons_some (if_pos rfl)
  have htimes' : ∀ id, id ≠ m.id → s'.times id = s.times id := fun id hne => by
    unfold times
    rw [hran]
    exact List.filterMap_cons_none (if_neg (Ne.symm hne))
  refine ⟨?_, fun j hj => ?_, ?_, ?_, ?_, hstarted ▸ h.budget, ?_⟩
  · rw [hjobs, List.pairwise_map]
    have hids : ∀ j : Job, (if j.id = m.id then j.segmentDone elapsed now else j).id = j.id :=
      fun j => by split_ifs <;> [exact id_segmentDone ..; rfl]
    refine h.ids.imp fun hlt => ?_
    rwa [hids, hids]
  · rw [hjobs] at hj
    obtain ⟨i, hi, rfl⟩ := List.mem_map.mp hj
    obtain ⟨hlow, hbelow, hstands, hcount, htime, henergy⟩ := h.jobs i hi
    have hnext : s'.dev.nextId = s.dev.nextId := by rw [hdev, nextId_account]
    by_cases hne : i.id = m.id
    · obtain rfl := h.eq_of_id hi hm hne
      rw [if_pos rfl]
      have hstands' := stands_segmentDone hp elapsed now
      rw [segmentDone_eq] at hstands' ⊢
      refine ⟨hlow, hnext ▸ hbelow, hstands', ?_, ?_, ?_⟩
      · show i.doneSegments + 1 = (s'.times i.id).length
        rw [htimes, hcount, List.length_cons]
      · show i.deviceUs + elapsed = (s'.times i.id).sum
        rw [htimes, htime, List.sum_cons, Nat.add_comm]
      · show i.energyUj + energyOf elapsed = ((s'.times i.id).map energyOf).sum
        rw [htimes, henergy, List.map_cons, List.sum_cons, Nat.add_comm]
    · rw [if_neg hne]
      refine ⟨hlow, hnext ▸ hbelow, hstands, ?_, ?_, ?_⟩
      all_goals rwa [htimes' _ hne]
  · have hlook : Dir.lookup Job.id s.dev.jobs m.id = some m := Dir.lookup_of_mem h.nodup hm
    have hsum := Dir.sum_put (e := m.segmentDone elapsed now) Job.doneSegments hlook
    have hdone : (m.segmentDone elapsed now).doneSegments = m.doneSegments + 1 := by
      rw [segmentDone_eq]
    rw [hdev, segmentsRun_account, h.segments_run, Tensor.jobs_account, updateJob, hlook]
    dsimp only
    omega
  · rw [hran]
    intro r hr
    rcases List.mem_cons.mp hr with rfl | hr
    · exact ⟨_, hself, hid⟩
    · obtain ⟨j, hj, hjr⟩ := h.ran r hr
      by_cases hne : j.id = m.id
      · exact ⟨_, hself, hid.trans (hne.symm.trans hjr)⟩
      · exact ⟨j, hother j hj hne, hjr⟩
  · rw [hstarted]
    intro i hi
    obtain ⟨j, hj, hji, hstart⟩ := h.started i hi
    by_cases hne : j.id = m.id
    · refine ⟨_, hself, hid.trans (hne.symm.trans hji), .inl ?_⟩
      rw [segmentDone_eq]
      exact Nat.succ_pos _
    · refine ⟨j, hother j hj hne, hji, .inl (hstart.resolve_right fun hrun' => hne ?_)⟩
      exact (Stage.running.inj (hrun.symm.trans hrun')).symm
  · rw [hstage]
    exact nofun

/-- The worker goes to sleep, or wakes up. -/
theorem Inv.rest (h : Inv low s) (hjobs : s'.dev.jobs = s.dev.jobs)
    (hnext : s'.dev.nextId = s.dev.nextId) (hcount : s'.dev.segmentsRun = s.dev.segmentsRun)
    (hrest : ∀ id, s.stage ≠ .running id) (hrest' : ∀ id, s'.stage ≠ .running id)
    (hstarted : s'.started = s.started) (hran : s'.ran = s.ran) : Inv low s' := by
  have htimes : ∀ id, s'.times id = s.times id := fun id => by
    unfold times
    rw [hran]
  refine ⟨hjobs ▸ h.ids, fun j hj => ?_, ?_, ?_, fun i hi => ?_, hstarted ▸ h.budget,
    fun id hrun => absurd hrun (hrest' id)⟩
  · obtain ⟨hlow, hbelow, hstands, hcount, htime, henergy⟩ := h.jobs j (hjobs ▸ hj)
    refine ⟨hlow, hnext ▸ hbelow, hstands, ?_, ?_, ?_⟩
    all_goals rwa [htimes]
  · rw [hcount, hjobs, h.segments_run]
  · rw [hran, hjobs]
    exact h.ran
  · obtain ⟨j, hj, hji, hstart⟩ := h.started i (hstarted ▸ hi)
    exact ⟨j, hjobs.symm ▸ hj, hji, .inl (hstart.resolve_right (hrest _))⟩

/-- The job that `pick` returns. -/
theorem Inv.picked (h : Inv low s) (hp : pick s.dev.jobs = some m) : m ∈ s.dev.jobs ∧ m.Pickable := by
  have hbest := pick_best h.ids
  rw [hp] at hbest
  exact hbest.1

/-- The worker chooses. -/
theorem Inv.choose (h : Inv low s) (hchoosing : s.stage = .choosing)
    (hdev : s'.dev = (Tensor.choose s.dev).2)
    (hstage : s'.stage = match (Tensor.choose s.dev).1 with
      | some id => .running id
      | none => .asleep)
    (hstarted : s'.started = (pick s.dev.jobs).toList ++ s.started) (hran : s'.ran = s.ran) :
    Inv low s' := by
  have hrest : ∀ id, s.stage ≠ .running id := fun id hrun => absurd (hchoosing.symm.trans hrun) nofun
  cases hc : Tensor.choose s.dev with
  | mk chosen dev =>
    rw [hc] at hdev hstage
    subst hdev
    cases hp : pick s.dev.jobs with
    | none =>
      have hnone : Tensor.choose s.dev = (none, { s.dev with lastRun := none }) := by
        unfold Tensor.choose
        rw [hp]
      obtain ⟨rfl, hdev⟩ := Prod.mk.inj (hc.symm.trans hnone)
      rw [hp] at hstarted
      refine h.rest ?_ ?_ ?_ hrest (fun id => hstage ▸ nofun) hstarted hran
      all_goals rw [hdev]
    | some m =>
      obtain ⟨hm, hpick⟩ := h.picked hp
      have hsome : chosen = some m.id := by
        have hfst := congrArg Prod.fst hc
        unfold Tensor.choose at hfst
        rw [hp] at hfst
        exact hfst.symm
      subst hsome
      obtain ⟨-, -, -, -, -, hdev, g, hjobs, hsame⟩ := choose_some h.ids hc
      rw [hp] at hstarted
      refine h.start hchoosing hm hpick hjobs hsame ?_ ?_ hstage hstarted hran
      all_goals rw [hdev]

theorem Inv.step (h : Inv low s) (hok : AtLeast low s a) (hs : s.step a = some s') : Inv low s' := by
  cases a with
  | submit now owner qos segments deadlineIn budget =>
    obtain ⟨state, why, hstate, heq⟩ :=
      submitted_eq s.dev now owner qos segments deadlineIn budget
    cases hs
    refine h.push (x := newJob s.dev.nextId owner qos segments deadlineIn now budget state why)
      ?_ ?_ ?_ rfl rfl rfl rfl hok (stands_newJob hstate) rfl rfl rfl
    all_goals
      dsimp only
      rw [heq, temperatureLocked_eq]
      rfl
  | wake =>
    unfold Ledger.step at hs
    cases hstage : s.stage with
    | asleep =>
      rw [hstage] at hs
      cases hs
      exact h.rest rfl rfl rfl (fun id hrun => absurd (hstage.symm.trans hrun) nofun) nofun rfl rfl
    | _ =>
      rw [hstage] at hs
      cases hs
  | choose =>
    unfold Ledger.step at hs
    cases hstage : s.stage with
    | choosing =>
      rw [hstage] at hs
      cases hs
      exact h.choose hstage rfl rfl rfl rfl
    | _ =>
      rw [hstage] at hs
      cases hs
  | finish elapsed now =>
    unfold Ledger.step at hs
    cases hstage : s.stage with
    | running id =>
      rw [hstage] at hs
      cases hs
      obtain ⟨m, hm, rfl, hp⟩ := h.running id hstage
      exact h.finish hstage hm hp rfl rfl rfl rfl
    | _ =>
      rw [hstage] at hs
      cases hs

theorem Init.inv (h : s.Init) : Inv low s := by
  have hnone : ∀ {P : Job → Prop}, ∀ j ∈ s.dev.jobs, P j := fun {P} j hj => by
    rw [h.jobs] at hj
    cases hj
  refine ⟨h.jobs ▸ List.Pairwise.nil, hnone, ?_, ?_, ?_, h.started ▸ List.Pairwise.nil, ?_⟩
  · rw [h.segmentsRun, h.jobs]
    rfl
  · rw [h.ran]
    exact nofun
  · rw [h.started]
    exact nofun
  · rw [h.stage]
    exact nofun

theorem inv_of_reachable (h : Run.Reachable Ledger.step (AtLeast low) Init s) : Inv low s :=
  h.invariant (Inv low) (fun _ h => h.inv) fun _ _ _ h hok hs => h.step hok hs

/-! ## Jobs that have ended -/

theorem not_live_of_final (h : j.Final) : ¬j.Live := by
  rcases h with hs | hs | hs <;> rintro (hl | hl) <;> cases hs.symm.trans hl

/-- A job that has ended stays as it ended. -/
theorem Inv.final_step (h : Inv low s) (hs : s.step a = some s') (hj : j ∈ s.dev.jobs) (hf : j.Final) :
    ∃ j' ∈ s'.dev.jobs, j'.id = j.id ∧ j'.state = j.state := by
  cases a with
  | submit now owner qos segments deadlineIn budget =>
    obtain ⟨state, why, -, heq⟩ := submitted_eq s.dev now owner qos segments deadlineIn budget
    cases hs
    refine ⟨j, ?_, rfl, rfl⟩
    dsimp only
    rw [heq, temperatureLocked_eq]
    exact List.mem_append_left _ hj
  | wake =>
    unfold Ledger.step at hs
    cases hstage : s.stage with
    | asleep =>
      rw [hstage] at hs
      cases hs
      exact ⟨j, hj, rfl, rfl⟩
    | _ =>
      rw [hstage] at hs
      cases hs
  | choose =>
    unfold Ledger.step at hs
    cases hstage : s.stage with
    | choosing =>
      rw [hstage] at hs
      cases hs
      cases hc : Tensor.choose s.dev with
      | mk chosen dev =>
        cases chosen with
        | none =>
          obtain ⟨rfl, -⟩ := choose_none h.ids hc
          exact ⟨j, hj, rfl, rfl⟩
        | some id =>
          obtain ⟨m, -, -, -, -, -, g, hjobs, hsame⟩ := choose_some h.ids hc
          refine ⟨g j, hjobs ▸ List.mem_map_of_mem hj, (hsame j hj).id_eq, ?_⟩
          exact (hsame j hj).state.resolve_right fun hl => not_live_of_final hf hl.1
    | _ =>
      rw [hstage] at hs
      cases hs
  | finish elapsed now =>
    unfold Ledger.step at hs
    cases hstage : s.stage with
    | running id =>
      rw [hstage] at hs
      cases hs
      obtain ⟨m, hm, rfl, hp⟩ := h.running id hstage
      have hne : j.id ≠ m.id := fun hid =>
        not_live_of_final hf (h.eq_of_id hj hm hid ▸ hp.1)
      refine ⟨j, ?_, rfl, rfl⟩
      show j ∈ (account s.dev m.id elapsed now).jobs
      rw [h.jobs_account]
      exact List.mem_map.mpr ⟨j, hj, if_neg hne⟩
    | _ =>
      rw [hstage] at hs
      cases hs

/-- Over any number of steps. -/
theorem Inv.final_exec (acts : List Act) : ∀ {s : Ledger} {j : Job}, Inv low s →
    Run.Meets Ledger.step (AtLeast low) s acts → Run.exec Ledger.step s acts = some s' →
      j ∈ s.dev.jobs → j.Final → ∃ j' ∈ s'.dev.jobs, j'.id = j.id ∧ j'.state = j.state := by
  induction acts with
  | nil =>
    intro s j _ _ hs hj _
    cases hs
    exact ⟨j, hj, rfl, rfl⟩
  | cons a acts ih =>
    intro s j h hmeets hs hj hf
    obtain ⟨t, ht, hrest⟩ := Option.bind_eq_some_iff.mp hs
    obtain ⟨i, hi, hid, hstate⟩ := h.final_step ht hj hf
    have hfinal : i.Final := by
      unfold Job.Final
      rwa [hstate]
    obtain ⟨j', hj', hid', hstate'⟩ :=
      ih (h.step hmeets.1 ht) (hmeets.2 t ht) hrest hi hfinal
    exact ⟨j', hj', hid'.trans hid, hstate'.trans hstate⟩

/-- In every run the counts, times and energies of the jobs are those of the segments that have run,
and a job that has ended stays as it ended. -/
theorem accounts_hold (h : Run.Reachable Ledger.step (AtLeast 1) Init s) :
    s.Accounts ∧ ∀ acts s', Run.Meets Ledger.step (AtLeast 1) s acts →
      Run.exec Ledger.step s acts = some s' → ∀ j ∈ s.dev.jobs, j.Final →
        ∃ j' ∈ s'.dev.jobs, j'.id = j.id ∧ j'.state = j.state :=
  ⟨(inv_of_reachable h).accounts, fun acts _ hmeets hs _ hj hf =>
    (inv_of_reachable h).final_exec acts hmeets hs hj hf⟩

end

/-- The device at boot. -/
def booted : Ledger :=
  { dev := ⟨[], 1, 0, 0, INITIAL_SEGMENT_US, none, 0, 0⟩
    preempted := 0, stage := .choosing, started := [], ran := [], taken := fun _ => 0 }

theorem init_booted : booted.Init := ⟨rfl, rfl, rfl, rfl, rfl, rfl, rfl, fun _ => rfl⟩

/-- A job of two segments that spends its budget of 4 mJ with the first. -/
def demoSpent : List Act :=
  [.submit 7 1 .background 2 none (some 4000), .choose, .finish 1600 8]

theorem accounts_hold_demoSpent : ∃ s, Run.exec Ledger.step booted demoSpent = some s ∧
    s.Accounts ∧ ∀ acts s', Run.Meets Ledger.step (AtLeast 1) s acts →
      Run.exec Ledger.step s acts = some s' → ∀ j ∈ s.dev.jobs, j.Final →
        ∃ j' ∈ s'.dev.jobs, j'.id = j.id ∧ j'.state = j.state := by
  have hstart : Run.Reachable Ledger.step (AtLeast 1) Init booted := .start init_booted
  have hmeets : Run.Meets Ledger.step (AtLeast 1) booted demoSpent :=
    .cons rfl (Nat.succ_pos 1) <| .cons rfl trivial <| .cons rfl trivial trivial
  exact ⟨_, rfl, accounts_hold (hstart.exec hmeets rfl)⟩

end Ledger

end JungeyOs.Tensor
