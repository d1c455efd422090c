import JungeyOs.Lib.Directory
import Mathlib.Data.Prod.Lex
import Mathlib.Order.Lattice.Nat

/-!
# The accelerator

Models of `kernel/src/tensor.rs`, lines 36–352 and 387–538: jobs, the thermal model, the
admission of a job, and what the worker does while it holds the device, once before a
segment and once after it. Sums do not wrap around, and the time is an argument. No two jobs
share an id.

Results:
* `pick_best`: `pick` returns the job that comes first by class, deadline and submission.
* `submit_cases`, `submit_ok`: what a submission does, and one that is admitted.
* `choose_some`: what the worker does before a segment.
-/

namespace JungeyOs.Tensor

/-- `Qos` (lines 40–50). -/
inductive Qos
  | interactive
  | foreground
  | background
  | opportunistic
  deriving DecidableEq

/-- The discriminant, by which classes are compared. -/
def Qos.toNat : Qos → ℕ
  | .interactive => 0
  | .foreground => 1
  | .background => 2
  | .opportunistic => 3

/-- `DEVICE_POWER_MW` (line 75). -/
def DEVICE_POWER_MW : ℕ := 2500

/-- `INITIAL_SEGMENT_US` (line 78). -/
def INITIAL_SEGMENT_US : ℕ := 1000

/-- `RISE_PER_SEGMENT_MILLI_C` (line 98). -/
def RISE_PER_SEGMENT_MILLI_C : ℕ := 200

/-- `DECAY_PER_MS_MILLI_C` (line 100). -/
def DECAY_PER_MS_MILLI_C : ℕ := 120

/-- `THROTTLE_MILLI_C` (line 104). -/
def THROTTLE_MILLI_C : ℕ := 15000

/-- `CRITICAL_MILLI_C` (line 108). -/
def CRITICAL_MILLI_C : ℕ := 45000

/-- `JobState` (lines 110–121). -/
inductive JobState
  | queued
  | running
  | done
  | refused
  | overBudget
  deriving DecidableEq

/-- `Job` (lines 123–145). -/
structure Job where
  id : ℕ
  owner : ℕ
  qos : Qos
  segments : ℕ
  doneSegments : ℕ
  deadlineUs : Option ℕ
  submittedUs : ℕ
  finishedUs : ℕ
  state : JobState
  preemptions : ℕ
  energyUj : ℕ
  energyBudgetUj : Option ℕ
  refusal : String
  deviceUs : ℕ

/-- `Device` (lines 181–193). -/
structure Device where
  jobs : List Job
  nextId : ℕ
  tempMilliC : ℕ
  thermalUpdatedUs : ℕ
  usPerSegment : ℕ
  lastRun : Option ℕ
  segmentsRun : ℕ
  peakMilliC : ℕ

/-- `Reject` (lines 210–215). -/
inductive Reject
  | undeliverable (neededUs availableUs : ℕ)
  | noHeadroom (tempMilliC limitMilliC : ℕ)

/-! ## Submission -/

/-- The job waits for the device, or has it. -/
def Job.Live (j : Job) : Prop := j.state = .queued ∨ j.state = .running

instance (j : Job) : Decidable j.Live := inferInstanceAs (Decidable (_ ∨ _))

/-- `temperature_locked` (lines 218–230): the device afterwards, which holds the temperature. -/
def temperatureLocked (dev : Device) (now : ℕ) : Device :=
  if dev.thermalUpdatedUs = 0 then { dev with thermalUpdatedUs := now }
  else
    let ms := (now - dev.thermalUpdatedUs) / 1000
    if 0 < ms then
      { dev with
        tempMilliC := dev.tempMilliC - ms * DECAY_PER_MS_MILLI_C, thermalUpdatedUs := now }
    else dev

/-- The temperature above which a class is refused (lines 288–292). -/
def thermalLimit : Qos → ℕ
  | .interactive => CRITICAL_MILLI_C
  | .foreground => CRITICAL_MILLI_C
  | _ => THROTTLE_MILLI_C

/-- A new job in its first or only state (lines 328–343 and 368–383). -/
def newJob (id owner : ℕ) (qos : Qos) (segments : ℕ) (deadlineIn : Option ℕ) (now : ℕ)
    (energyBudgetUj : Option ℕ) (state : JobState) (refusal : String) : Job :=
  { id, owner, qos, segments, doneSegments := 0, deadlineUs := deadlineIn.map (now + ·)
    submittedUs := now, finishedUs := 0, state, preemptions := 0, energyUj := 0, energyBudgetUj
    refusal, deviceUs := 0 }

/-- `dev.jobs.push` of a job with the next id. -/
def push (dev : Device) (j : Job) : Device :=
  { dev with jobs := dev.jobs ++ [j], nextId := dev.nextId + 1 }

/-- `record_refusal` (lines 354–385). -/
def recordRefusal (dev : Device) (owner : ℕ) (qos : Qos) (segments : ℕ) (deadlineIn : Option ℕ)
    (now : ℕ) (energyBudgetUj : Option ℕ) (why : String) : Device :=
  push dev (newJob dev.nextId owner qos segments deadlineIn now energyBudgetUj .refused why)

/-- The work that a new job of class `qos` cannot push in front of (lines 306–313). -/
def ahead (jobs : List Job) (qos : Qos) (cost : ℕ) : ℕ :=
  ((jobs.filter fun j => j.Live ∧ j.qos.toNat ≤ qos.toNat).map
    fun j => (j.segments - j.doneSegments) * cost).sum

/-- `submit_with_budget` (lines 268–352), up to its wake-up. -/
def submitWithBudget (dev : Device) (now owner : ℕ) (qos : Qos) (segments : ℕ)
    (deadlineIn energyBudgetUj : Option ℕ) : Except Reject ℕ × Device :=
  let cost := dev.usPerSegment
  let neededUs := segments * cost
  let dev := temperatureLocked dev now
  let admitted := (.ok dev.nextId,
    push dev (newJob dev.nextId owner qos segments deadlineIn now energyBudgetUj .queued ""))
  if thermalLimit qos ≤ dev.tempMilliC then
    (.error (.noHeadroom dev.tempMilliC (thermalLimit qos)),
      recordRefusal dev owner qos segments deadlineIn now energyBudgetUj "no thermal headroom")
  else match deadlineIn with
    | some window =>
      let aheadUs := ahead dev.jobs qos cost
      if window < neededUs + aheadUs then
        (.error (.undeliverable (neededUs + aheadUs) window),
          recordRefusal dev owner qos segments deadlineIn now energyBudgetUj
            "deadline cannot be met")
      else admitted
    | none => admitted

/-- Time changes the thermal model only. -/
theorem temperatureLocked_eq (dev : Device) (now : ℕ) :
    temperatureLocked dev now = { dev with
      tempMilliC := (temperatureLocked dev now).tempMilliC
      thermalUpdatedUs := (temperatureLocked dev now).thermalUpdatedUs } := by
  unfold temperatureLocked
  dsimp only
  split_ifs <;> rfl

/-- What a submission does: it leaves a record of the refusal, or the job waits for the device
and, with what is ahead of it, fits its window. -/
theorem submit_cases (dev : Device) (now owner : ℕ) (qos : Qos) (segments : ℕ)
    (deadlineIn budget : Option ℕ) :
    (∃ e why, submitWithBudget dev now owner qos segments deadlineIn budget =
      (.error e, push (temperatureLocked dev now)
        (newJob dev.nextId owner qos segments deadlineIn now budget .refused why))) ∨
    submitWithBudget dev now owner qos segments deadlineIn budget =
      (.ok dev.nextId, push (temperatureLocked dev now)
        (newJob dev.nextId owner qos segments deadlineIn now budget .queued "")) ∧
      ∀ window, deadlineIn = some window →
        segments * dev.usPerSegment + ahead dev.jobs qos dev.usPerSegment ≤ window := by
  have hnext : (temperatureLocked dev now).nextId = dev.nextId := by rw [temperatureLocked_eq]
  have hjobs : (temperatureLocked dev now).jobs = dev.jobs := by rw [temperatureLocked_eq]
  unfold submitWithBudget recordRefusal
  simp only [hnext, hjobs]
  by_cases hhot : thermalLimit qos ≤ (temperatureLocked dev now).tempMilliC
  · rw [if_pos hhot]
    exact .inl ⟨_, _, rfl⟩
  · rw [if_neg hhot]
    cases deadlineIn with
    | none => exact .inr ⟨rfl, nofun⟩
    | some window =>
      dsimp only
      by_cases hlate : window < segments * dev.usPerSegment + ahead dev.jobs qos dev.usPerSegment
      · rw [if_pos hlate]
        exact .inl ⟨_, _, rfl⟩
      · rw [if_neg hlate]
        refine .inr ⟨rfl, fun w hw => ?_⟩
        obtain rfl := Option.some.inj hw
        exact Nat.not_lt.mp hlate

/-- `u64::MAX`. -/
def U64_MAX : ℕ := 2 ^ 64 - 1

/-- What `pick` compares a job by (lines 403–404). -/
def Job.urgency (j : Job) : ℕ ×ₗ ℕ := toLex (j.qos.toNat, j.deadlineUs.getD U64_MAX)

/-- The job has a segment to run (lines 393–398). -/
def Job.Pickable (j : Job) : Prop := j.Live ∧ j.doneSegments < j.segments

instance (j : Job) : Decidable j.Pickable := inferInstanceAs (Decidable (_ ∧ _))

/-- One round of the loop of `pick` (lines 392–410), which keeps the best job rather than its
index. -/
def better (best : Option Job) (j : Job) : Option Job :=
  if ¬j.Pickable then best
  else match best with
    | none => some j
    | some c => if j.urgency < c.urgency then some j else some c

/-- `pick` (lines 387–412). -/
def pick (jobs : List Job) : Option Job := jobs.foldl better none

/-- The order in which the worker takes jobs: by class, deadline and submission. -/
def Job.rank (j : Job) : (ℕ ×ₗ ℕ) ×ₗ ℕ := toLex (j.urgency, j.id)

/-- A job that comes first is of no lower class. -/
theorem qos_le_of_rank {j m : Job} (h : j.rank ≤ m.rank) : j.qos.toNat ≤ m.qos.toNat := by
  have hurgency : j.urgency ≤ m.urgency := by
    rcases Prod.Lex.toLex_le_toLex.mp h with hlt | ⟨heq, -⟩
    · exact hlt.le
    · exact heq.le
  rcases Prod.Lex.toLex_le_toLex.mp hurgency with hlt | ⟨heq, -⟩
  · exact hlt.le
  · exact heq.le

/-! ## The worker -/

/-- The job of an id after a change. -/
def updateJob (jobs : List Job) (id : ℕ) (f : Job → Job) : List Job :=
  match Dir.lookup Job.id jobs id with
  | some j => Dir.put Job.id jobs id (f j)
  | none => jobs

/-- The preemption of the job that ran before, if it still has work (lines 464–476). -/
def countPreemption (jobs : List Job) (lastRun : Option ℕ) (id : ℕ) : List Job :=
  match lastRun with
  | some prev =>
    if prev ≠ id then updateJob jobs prev fun p =>
      if p.doneSegments < p.segments then { p with preemptions := p.preemptions + 1 } else p
    else jobs
  | none => jobs

/-- The worker before a segment (lines 448–481): the job that it runs. -/
def choose (dev : Device) : Option ℕ × Device :=
  match pick dev.jobs with
  | none => (none, { dev with lastRun := none })
  | some j => (some j.id, { dev with
      jobs := updateJob (countPreemption dev.jobs dev.lastRun j.id) j.id
        fun j => { j with state := .running }
      lastRun := some j.id })

/-- The energy of a segment (line 513). -/
def energyOf (elapsed : ℕ) : ℕ := elapsed * DEVICE_POWER_MW / 1000

/-- The job has spent what it may (line 516). -/
def SpentOut (budget : Option ℕ) (energyUj : ℕ) : Prop := ∃ b ∈ budget, b ≤ energyUj

instance (budget : Option ℕ) (energyUj : ℕ) : Decidable (SpentOut budget energyUj) :=
  match budget with
  | none => isFalse (by rintro ⟨b, hb, -⟩; cases hb)
  | some b => decidable_of_iff (b ≤ energyUj) (by simp [SpentOut])

/-- A job after one of its segments (lines 510–525). -/
def Job.segmentDone (j : Job) (elapsed now : ℕ) : Job :=
  let j := { j with
    doneSegments := j.doneSegments + 1, deviceUs := j.deviceUs + elapsed
    energyUj := j.energyUj + energyOf elapsed }
  if j.segments ≤ j.doneSegments then { j with state := .done, finishedUs := now }
  else if SpentOut j.energyBudgetUj j.energyUj then
    { j with state := .overBudget, finishedUs := now }
  else j

/-- A segment changes the counts of a job, and its state and finishing time perhaps. -/
theorem segmentDone_eq (j : Job) (elapsed now : ℕ) : j.segmentDone elapsed now =
    { j with
      doneSegments := j.doneSegments + 1, deviceUs := j.deviceUs + elapsed
      energyUj := j.energyUj + energyOf elapsed
      state := (j.segmentDone elapsed now).state
      finishedUs := (j.segmentDone elapsed now).finishedUs } := by
  unfold Job.segmentDone
  dsimp only
  split_ifs <;> rfl

theorem id_segmentDone (j : Job) (elapsed now : ℕ) : (j.segmentDone elapsed now).id = j.id := by
  rw [segmentDone_eq]

/-- The worker after a segment of job `id` (lines 492–528), without its wake-up. -/
def account (dev : Device) (id elapsed now : ℕ) : Device :=
  let dev := { dev with
    usPerSegment := (dev.usPerSegment * 3 + elapsed) / 4, segmentsRun := dev.segmentsRun + 1 }
  let dev := temperatureLocked dev now
  let temp := dev.tempMilliC + RISE_PER_SEGMENT_MILLI_C
  { dev with
    tempMilliC := temp, peakMilliC := max dev.peakMilliC temp
    jobs := updateJob dev.jobs id fun j => j.segmentDone elapsed now }

section

variable (dev : Device) (id elapsed now : ℕ)

theorem jobs_account : (account dev id elapsed now).jobs =
    updateJob dev.jobs id fun j => j.segmentDone elapsed now := by
  unfold account
  dsimp only
  rw [temperatureLocked_eq]

theorem nextId_account : (account dev id elapsed now).nextId = dev.nextId := by
  unfold account
  dsimp only
  rw [temperatureLocked_eq]

theorem usPerSegment_account :
    (account dev id elapsed now).usPerSegment = (dev.usPerSegment * 3 + elapsed) / 4 := by
  unfold account
  dsimp only
  rw [temperatureLocked_eq]

end

/-! ## Lookups and changes of one job -/

section

variable {jobs : List Job} {j m : Job} {id : ℕ} {f : Job → Job}

theorem updateJob_eq_map (hnodup : (jobs.map Job.id).Nodup) :
    updateJob jobs id f = jobs.map fun j => if j.id = id then f j else j := by
  unfold updateJob
  cases hx : Dir.lookup Job.id jobs id with
  | none =>
    have hne : ∀ j ∈ jobs, j.id ≠ id := Dir.lookup_eq_none.mp hx
    refine ((List.map_congr_left (g := fun j => j) fun j hj => ?_).trans (List.map_id' jobs)).symm
    exact if_neg (hne j hj)
  | some x =>
    refine (Dir.put_eq_map hnodup hx).trans (List.map_congr_left fun j hj => ?_)
    by_cases hid : j.id = id
    · rw [if_pos hid, if_pos hid]
      have hlook := Dir.lookup_of_mem hnodup hj
      rw [hid, hx] at hlook
      rw [Option.some.inj hlook]
    · rw [if_neg hid, if_neg hid]

end

/-- `j'` is `j` but for its count of preemptions, and runs perhaps. -/
structure Job.Same (j j' : Job) : Prop where
  fields : j' = { j with state := j'.state, preemptions := j'.preemptions }
  state : j'.state = j.state ∨ j.Live ∧ j'.state = .running

namespace Job.Same

variable {j j' j'' : Job}

theorem refl (j : Job) : j.Same j := ⟨rfl, .inl rfl⟩

theorem live (h : j.Same j') : j'.Live ↔ j.Live := by
  unfold Job.Live
  rcases h.state with hs | ⟨hl, hs⟩
  · rw [hs]
  · rw [hs]
    exact iff_of_true (.inr rfl) hl

theorem trans (h : j.Same j') (h' : j'.Same j'') : j.Same j'' := by
  refine ⟨?_, ?_⟩
  · rw [h'.fields, h.fields]
  · rcases h'.state with hs | ⟨hl, hs⟩
    · rw [hs]
      exact h.state
    · exact .inr ⟨h.live.mp hl, hs⟩

theorem id_eq (h : j.Same j') : j'.id = j.id := by rw [h.fields]

theorem rank (h : j.Same j') : j'.rank = j.rank := by
  rw [h.fields]
  rfl

theorem pickable (h : j.Same j') : j'.Pickable ↔ j.Pickable := by
  unfold Job.Pickable
  rw [h.live, h.fields]

end Job.Same

/-- A change of one job that keeps it the same. -/
theorem same_updateJob {jobs : List Job} (id : ℕ) (f : Job → Job)
    (hnodup : (jobs.map Job.id).Nodup) (hf : ∀ j ∈ jobs, j.id = id → j.Same (f j)) :
    ∃ h : Job → Job, updateJob jobs id f = jobs.map h ∧ ∀ j ∈ jobs, j.Same (h j) := by
  refine ⟨_, updateJob_eq_map hnodup, fun j hj => ?_⟩
  by_cases hid : j.id = id
  · rw [if_pos hid]
    exact hf j hj hid
  · rw [if_neg hid]
    exact .refl j

theorem same_countPreemption {jobs : List Job} (hnodup : (jobs.map Job.id).Nodup)
    (lastRun : Option ℕ) (id : ℕ) :
    ∃ h : Job → Job, countPreemption jobs lastRun id = jobs.map h ∧ ∀ j ∈ jobs, j.Same (h j) := by
  have hnone : ∃ h : Job → Job, jobs = jobs.map h ∧ ∀ j ∈ jobs, j.Same (h j) :=
    ⟨fun j => j, (List.map_id' jobs).symm, fun j _ => .refl j⟩
  cases lastRun with
  | none => exact hnone
  | some prev =>
    by_cases hprev : prev ≠ id
    · rw [countPreemption, if_pos hprev]
      refine same_updateJob _ _ hnodup fun j _ _ => ?_
      by_cases hwork : j.doneSegments < j.segments
      · rw [if_pos hwork]
        exact ⟨rfl, .inl rfl⟩
      · rw [if_neg hwork]
        exact .refl j
    · rw [countPreemption, if_neg hprev]
      exact hnone

/-! ## The first job -/

/-- The first of the jobs that satisfy `p`, if there is one. -/
def Best (p : Job → Prop) : Option Job → Prop
  | none => ∀ j, ¬p j
  | some m => p m ∧ ∀ j, p j → m.rank ≤ j.rank

/-- One more job is considered, which was submitted after all others. -/
theorem best_better {p : Job → Prop} {best : Option Job} {j : Job} (h : Best p best)
    (hp : ∀ c, p c → c.id < j.id) :
    Best (fun c => p c ∨ c = j ∧ j.Pickable) (better best j) := by
  unfold better
  by_cases hj : j.Pickable
  · rw [if_neg (not_not.mpr hj)]
    cases best with
    | none =>
      refine ⟨.inr ⟨rfl, hj⟩, fun c hc => ?_⟩
      rcases hc with hc | ⟨rfl, -⟩
      · exact absurd hc (h c)
      · exact le_rfl
    | some m =>
      dsimp only
      by_cases hlt : j.urgency < m.urgency
      · rw [if_pos hlt]
        have hjm : j.rank ≤ m.rank := Prod.Lex.toLex_le_toLex.mpr (.inl hlt)
        refine ⟨.inr ⟨rfl, hj⟩, fun c hc => ?_⟩
        rcases hc with hc | ⟨rfl, -⟩
        · exact hjm.trans (h.2 c hc)
        · exact le_rfl
      · rw [if_neg hlt]
        refine ⟨.inl h.1, fun c hc => ?_⟩
        rcases hc with hc | ⟨rfl, -⟩
        · exact h.2 c hc
        · -- a job of the same urgency was submitted later
          refine Prod.Lex.toLex_le_toLex.mpr ?_
          rcases (not_lt.mp hlt).lt_or_eq with hlt' | heq
          · exact .inl hlt'
          · exact .inr ⟨heq, (hp m h.1).le⟩
  · rw [if_pos hj]
    have hiff : ∀ c, (p c ∨ c = j ∧ j.Pickable) ↔ p c := fun c =>
      or_iff_left fun hc => hj hc.2
    cases best with
    | none => exact fun c hc => h c ((hiff c).mp hc)
    | some m => exact ⟨.inl h.1, fun c hc => h.2 c ((hiff c).mp hc)⟩

/-- `pick` returns the first of the jobs that have a segment to run. -/
theorem pick_best {jobs : List Job} (hids : jobs.Pairwise fun a b => a.id < b.id) :
    Best (fun j => j ∈ jobs ∧ j.Pickable) (pick jobs) := by
  induction jobs using List.reverseRecOn with
  | nil => exact fun j hj => by cases hj.1
  | append_singleton jobs j ih =>
    obtain ⟨hids, -, hlast⟩ := List.pairwise_append.mp hids
    have hbest := best_better (ih hids) (j := j) fun c hc => hlast c hc.1 j (List.mem_singleton_self j)
    rw [pick, List.foldl_append]
    have hiff : ∀ c, (c ∈ jobs ++ [j] ∧ c.Pickable) ↔ (c ∈ jobs ∧ c.Pickable ∨ c = j ∧ j.Pickable) := by
      intro c
      rw [List.mem_append, List.mem_singleton]
      constructor
      · rintro ⟨hc | rfl, hp⟩
        · exact .inl ⟨hc, hp⟩
        · exact .inr ⟨rfl, hp⟩
      · rintro (⟨hc, hp⟩ | ⟨rfl, hp⟩)
        · exact ⟨.inl hc, hp⟩
        · exact ⟨.inr rfl, hp⟩
    simp only [hiff]
    exact hbest

theorem choose_none {dev dev' : Device} (hids : dev.jobs.Pairwise fun a b => a.id < b.id)
    (h : choose dev = (none, dev')) :
    dev' = { dev with lastRun := none } ∧ ∀ j ∈ dev.jobs, ¬j.Pickable := by
  have hbest := pick_best hids
  unfold choose at h
  cases hp : pick dev.jobs with
  | none =>
    simp only [hp, Prod.mk.injEq, true_and] at h
    rw [hp] at hbest
    exact ⟨h.symm, fun j hj hjp => hbest j ⟨hj, hjp⟩⟩
  | some m =>
    simp only [hp] at h
    cases h

/-- What the worker does before a segment. -/
theorem choose_some {dev dev' : Device} {id : ℕ}
    (hids : dev.jobs.Pairwise fun a b => a.id < b.id) (h : choose dev = (some id, dev')) :
    ∃ m ∈ dev.jobs, m.id = id ∧ m.Pickable ∧ (∀ j ∈ dev.jobs, j.Pickable → m.rank ≤ j.rank) ∧
      dev' = { dev with jobs := dev'.jobs, lastRun := some id } ∧
      ∃ h : Job → Job, dev'.jobs = dev.jobs.map h ∧ ∀ j ∈ dev.jobs, j.Same (h j) := by
  have hbest := pick_best hids
  unfold choose at h
  cases hp : pick dev.jobs with
  | none =>
    simp only [hp] at h
    cases h
  | some m =>
    simp only [hp, Prod.mk.injEq, Option.some.injEq] at h
    obtain ⟨rfl, rfl⟩ := h
    rw [hp] at hbest
    obtain ⟨⟨hm, hpick⟩, hfirst⟩ := hbest
    have hnodup : (dev.jobs.map Job.id).Nodup :=
      List.pairwise_map.mpr (hids.imp fun hlt => Nat.ne_of_lt hlt)
    refine ⟨m, hm, rfl, hpick, fun j hj hjp => hfirst j ⟨hj, hjp⟩, rfl, ?_⟩
    obtain ⟨g, hg, hsame⟩ := same_countPreemption hnodup dev.lastRun m.id
    have hmap : (dev.jobs.map g).map Job.id = dev.jobs.map Job.id := by
      rw [List.map_map]
      exact List.map_congr_left fun j hj => (hsame j hj).id_eq
    have hone : ∀ j ∈ dev.jobs, j.id = m.id → j = m := fun j hj hid =>
      List.inj_on_of_nodup_map hnodup hj hm hid
    obtain ⟨g', hg', hsame'⟩ := same_updateJob m.id (fun j => { j with state := .running })
      (hmap.symm ▸ hnodup) fun j hj hid => by
        obtain ⟨i, hi, rfl⟩ := List.mem_map.mp hj
        obtain rfl := hone i hi ((hsame i hi).id_eq.symm.trans hid)
        exact ⟨rfl, .inr ⟨(hsame i hi).live.mpr hpick.1, rfl⟩⟩
    refine ⟨g' ∘ g, ?_, fun j hj => (hsame j hj).trans (hsame' _ (List.mem_map_of_mem hj))⟩
    show updateJob (countPreemption dev.jobs dev.lastRun m.id) m.id _ = _
    rw [hg, hg', List.map_map]

end JungeyOs.Tensor
