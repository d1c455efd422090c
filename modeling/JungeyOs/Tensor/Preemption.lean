import JungeyOs.Tensor.Ledger

/-!
# Preemptions

Before a segment the worker charges a preemption to the job that it ran before, if that is another
job with segments left. A job that has spent its budget has segments left too, although it gave the
device up.

Results:
* `sum_preemptions_choose`: `PREEMPTIONS` grows with the count of one job.
* `charged_step`: a step charges what it should exactly when it meets the condition.
* `charged_iff`: in a run the counts are right exactly when, after a job that has spent its budget,
  no other waits.
-/

namespace JungeyOs.Tensor

namespace Ledger

/-! ## The claim -/

/-- Each job has been charged as often as the device was taken from it, and `PREEMPTIONS` is the sum
over the jobs. -/
structure Charged (s : Ledger) : Prop where
  jobs : ∀ j ∈ s.dev.jobs, j.preemptions = s.taken j.id
  sum : s.preempted = (s.dev.jobs.map Job.preemptions).sum

/-- When the worker chooses after a job that has spent its budget, no job waits. -/
def Fair (s : Ledger) : Act → Prop
  | .choose => s.stage = .choosing → ∀ p ∈ s.dev.jobs, s.dev.lastRun = some p.id →
      p.state = .overBudget → ∀ j ∈ s.dev.jobs, ¬j.Pickable
  | _ => True

end Ledger

/-! ## What the worker charges -/

section

variable {jobs : List Job} {dev : Device} {m : Job} {lastRun : Option ℕ} {id : ℕ}

/-- The job is charged before a segment of job `id`. -/
def Job.Charges (p : Job) (lastRun : Option ℕ) (id : ℕ) : Prop :=
  lastRun = some p.id ∧ p.id ≠ id ∧ p.doneSegments < p.segments

instance (p : Job) (lastRun : Option ℕ) (id : ℕ) : Decidable (p.Charges lastRun id) :=
  inferInstanceAs (Decidable (_ ∧ _))

theorem countPreemption_eq_map (hnodup : (jobs.map Job.id).Nodup) (lastRun : Option ℕ) (id : ℕ) :
    countPreemption jobs lastRun id = jobs.map fun p =>
      if p.Charges lastRun id then { p with preemptions := p.preemptions + 1 } else p := by
  cases lastRun with
  | none =>
    refine ((List.map_congr_left fun p _ => ?_).trans (List.map_id jobs)).symm
    exact if_neg fun h => absurd h.1 nofun
  | some prev =>
    unfold countPreemption
    dsimp only
    by_cases hprev : prev ≠ id
    · rw [if_pos hprev, updateJob_eq_map hnodup]
      refine List.map_congr_left fun p _ => ?_
      by_cases hp : p.id = prev
      · subst hp
        rw [if_pos rfl]
        by_cases hwork : p.doneSegments < p.segments
        · rw [if_pos hwork, if_pos ⟨rfl, hprev, hwork⟩]
        · rw [if_neg hwork, if_neg fun h => hwork h.2.2]
      · rw [if_neg hp, if_neg fun h => hp (Option.some.inj h.1).symm]
    · rw [if_neg hprev]
      refine ((List.map_congr_left fun p _ => ?_).trans (List.map_id jobs)).symm
      refine if_neg fun h => hprev ?_
      rw [Option.some.inj h.1]
      exact h.2.1

/-- What the worker has chosen. -/
theorem choose_eq (hp : pick dev.jobs = some m) : choose dev = (some m.id, { dev with
    jobs := updateJob (countPreemption dev.jobs dev.lastRun m.id) m.id
      fun j => { j with state := .running }
    lastRun := some m.id }) := by
  unfold choose
  rw [hp]

theorem choose_eq_none (hp : pick dev.jobs = none) :
    choose dev = (none, { dev with lastRun := none }) := by
  unfold choose
  rw [hp]

/-- The jobs before a segment, with the preemption charged. -/
theorem jobs_choose (hnodup : (dev.jobs.map Job.id).Nodup) (hp : pick dev.jobs = some m) :
    (choose dev).2.jobs = dev.jobs.map fun p =>
      { p with
        state := if p.id = m.id then .running else p.state
        preemptions := p.preemptions + if p.Charges dev.lastRun m.id then 1 else 0 } := by
  have hids : ((countPreemption dev.jobs dev.lastRun m.id).map Job.id).Nodup := by
    rw [countPreemption_eq_map hnodup, List.map_map]
    convert hnodup using 2
    funext p
    show (if p.Charges dev.lastRun m.id then _ else p : Job).id = p.id
    split_ifs <;> rfl
  rw [choose_eq hp]
  dsimp only
  rw [updateJob_eq_map hids, countPreemption_eq_map hnodup, List.map_map]
  refine List.map_congr_left fun p _ => ?_
  show (if (if p.Charges dev.lastRun m.id then _ else p : Job).id = m.id then _ else _) = _
  by_cases hc : p.Charges dev.lastRun m.id
  · simp only [if_pos hc, if_neg hc.2.1]
  · simp only [if_neg hc, Nat.add_zero]
    split_ifs <;> rfl

theorem preempts_eq (hp : pick dev.jobs = some m) :
    dev.preempts = if ∃ p ∈ dev.jobs, p.Charges dev.lastRun m.id then 1 else 0 := by
  unfold Device.preempts
  rw [hp]
  cases dev.lastRun with
  | none =>
    refine (if_neg ?_).symm
    rintro ⟨p, -, hlast, -⟩
    cases hlast
  | some prev =>
    refine if_congr ⟨?_, ?_⟩ rfl rfl
    · rintro ⟨hne, p, hp, rfl, hwork⟩
      exact ⟨p, hp, rfl, hne, hwork⟩
    · rintro ⟨p, hp, hlast, hne, hwork⟩
      obtain rfl := Option.some.inj hlast
      exact ⟨hne, p, hp, rfl, hwork⟩

/-- `PREEMPTIONS` grows with the count of one job. -/
theorem sum_preemptions_choose (hnodup : (dev.jobs.map Job.id).Nodup) :
    ((choose dev).2.jobs.map Job.preemptions).sum =
      (dev.jobs.map Job.preemptions).sum + dev.preempts := by
  cases hp : pick dev.jobs with
  | none =>
    rw [choose_eq_none hp]
    unfold Device.preempts
    rw [hp]
    rfl
  | some m =>
    have hone := Dir.sum_indicator (n := dev.lastRun.getD 0)
      (P := fun p : Job => p.Charges dev.lastRun m.id) hnodup fun p _ hc => by
        rw [hc.1]
        rfl
    rw [jobs_choose hnodup hp, List.map_map, preempts_eq hp, ← hone, ← List.sum_map_add]
    rfl

end

/-! ## The job that ran last -/

namespace Ledger

/-- No segment runs. -/
def Between (s : Ledger) : Prop := ∀ id, s.stage ≠ .running id

structure Remembers (s : Ledger) : Prop where
  inv : Inv 0 s
  running : ∀ id, s.stage = .running id → s.dev.lastRun = some id
  /-- the job that the device remembers is the one that ran last -/
  last : s.Between → ∀ id, s.dev.lastRun = some id → ∃ elapsed rest, s.ran = (id, elapsed) :: rest
  /-- the job that ran last is remembered, or has no segment to run -/
  ran : s.Between → ∀ id elapsed rest, s.ran = (id, elapsed) :: rest →
    s.dev.lastRun = some id ∨ ∀ p ∈ s.dev.jobs, p.id = id → ¬p.Pickable
  fresh : ∀ id, (∀ j ∈ s.dev.jobs, j.id ≠ id) → s.taken id = 0

section

variable {s s' : Ledger} {a : Act} {j m p x : Job}

/-- The job that ran last and has segments left goes on, or has spent its budget. -/
theorem Remembers.live_or (h : Remembers s) (hb : s.Between) (hp : p ∈ s.dev.jobs)
    (hlast : s.dev.lastRun = some p.id) (hwork : p.doneSegments < p.segments) :
    p.Live ∨ p.state = .overBudget := by
  obtain ⟨elapsed, rest, hran⟩ := h.last hb p.id hlast
  have hrec := h.inv.jobs p hp
  have hpos : p.doneSegments ≠ 0 := by
    rw [hrec.count]
    intro hzero
    refine ne_of_times hzero (p.id, elapsed) ?_ rfl
    rw [hran]
    exact List.mem_cons_self
  have hstands := hrec.stands
  unfold Job.Stands at hstands
  cases hs : p.state with
  | queued => exact .inl (.inl hs)
  | running => exact .inl (.inr hs)
  | overBudget => exact .inr rfl
  | done =>
    rw [hs] at hstands
    exact absurd hwork (Nat.not_lt.mpr hstands.ge)
  | refused =>
    rw [hs] at hstands
    exact absurd hstands hpos

/-- A job that is taken from is the one that ran last. -/
theorem takes_eq_some (hp : pick s.dev.jobs = some m) {id : ℕ} : s.takes = some id ↔
    (∃ elapsed rest, s.ran = (id, elapsed) :: rest) ∧ id ≠ m.id ∧
      ∃ p ∈ s.dev.jobs, p.id = id ∧ p.Pickable := by
  unfold takes
  rw [hp]
  cases hran : s.ran with
  | nil => exact iff_of_false nofun (by rintro ⟨⟨elapsed, rest, hnil⟩, -⟩; cases hnil)
  | cons r rest =>
    obtain ⟨prev, elapsed⟩ := r
    dsimp only
    by_cases hc : prev ≠ m.id ∧ ∃ p ∈ s.dev.jobs, p.id = prev ∧ p.Pickable
    · rw [if_pos hc, Option.some.injEq]
      constructor
      · rintro rfl
        exact ⟨⟨elapsed, rest, rfl⟩, hc⟩
      · rintro ⟨⟨elapsed', rest', heq⟩, -⟩
        cases heq
        rfl
    · rw [if_neg hc]
      refine iff_of_false nofun ?_
      rintro ⟨⟨elapsed', rest', heq⟩, hc'⟩
      cases heq
      exact hc hc'

theorem takes_none (hp : pick s.dev.jobs = none) : s.takes = none := by
  unfold takes
  rw [hp]

/-- A preemption is charged that should be, or after a job that has spent its budget. -/
theorem Remembers.charges_iff (h : Remembers s) (hb : s.Between) (hm : pick s.dev.jobs = some m)
    (hp : p ∈ s.dev.jobs) : p.Charges s.dev.lastRun m.id ↔
      s.takes = some p.id ∨ s.dev.lastRun = some p.id ∧ p.state = .overBudget := by
  obtain ⟨hmem, hpick⟩ := h.inv.picked hm
  have hover : p.state = .overBudget → p.id ≠ m.id ∧ p.doneSegments < p.segments ∧ ¬p.Live := by
    intro hs
    have hstands := (h.inv.jobs p hp).stands
    unfold Job.Stands at hstands
    rw [hs] at hstands
    have hnot : ¬p.Live := not_live_of_final (.inr (.inr hs))
    exact ⟨fun hid => hnot (h.inv.eq_of_id hp hmem hid ▸ hpick.1), hstands, hnot⟩
  rw [takes_eq_some hm]
  constructor
  · rintro ⟨hlast, hne, hwork⟩
    rcases h.live_or hb hp hlast hwork with hl | hs
    · exact .inl ⟨h.last hb p.id hlast, hne, p, hp, rfl, hl, hwork⟩
    · exact .inr ⟨hlast, hs⟩
  · rintro (⟨⟨elapsed, rest, hran⟩, hne, q, hq, hid, hqp⟩ | ⟨hlast, hs⟩)
    · obtain rfl := h.inv.eq_of_id hq hp hid
      refine ⟨(h.ran hb q.id elapsed rest hran).resolve_right fun hnone => ?_, hne, hqp.2⟩
      exact hnone q hq rfl hqp
    · exact ⟨hlast, (hover hs).1, (hover hs).2.1⟩

/-- The counts after the worker has chosen a job. -/
theorem Remembers.charged_choose (h : Remembers s) (hb : s.Between)
    (hm : pick s.dev.jobs = some m) (hc : s.Charged) :
    (∀ j ∈ (choose s.dev).2.jobs, j.preemptions =
      s.taken j.id + if s.takes = some j.id then 1 else 0) ↔
        ∀ p ∈ s.dev.jobs, s.dev.lastRun = some p.id → p.state = .overBudget →
          ∀ j ∈ s.dev.jobs, ¬j.Pickable := by
  obtain ⟨hmem, hpick⟩ := h.inv.picked hm
  rw [jobs_choose h.inv.nodup hm, List.forall_mem_map]
  constructor
  · intro hcount p hp hlast hs
    have hp' := hcount p hp
    have hcharge : p.Charges s.dev.lastRun m.id := (h.charges_iff hb hm hp).mpr (.inr ⟨hlast, hs⟩)
    -- the job has ended, so it is not taken from
    have hnot : s.takes ≠ some p.id := fun htakes => by
      obtain ⟨-, -, q, hq, hid, hqp⟩ := (takes_eq_some hm).mp htakes
      obtain rfl := h.inv.eq_of_id hq hp hid
      exact not_live_of_final (.inr (.inr hs)) hqp.1
    dsimp only at hp'
    rw [if_pos hcharge, if_neg hnot, hc.jobs p hp] at hp'
    omega
  · intro hfair p hp
    have hiff : p.Charges s.dev.lastRun m.id ↔ s.takes = some p.id :=
      (h.charges_iff hb hm hp).trans (or_iff_left fun hover => hfair p hp hover.1 hover.2 m hmem hpick)
    dsimp only
    rw [hc.jobs p hp]
    exact congrArg _ (if_congr hiff rfl rfl)

/-- A step charges what it should exactly when it meets the condition. -/
theorem Remembers.charged_step (h : Remembers s) (hc : s.Charged) (hs : s.step a = some s') :
    s'.Charged ↔ s.Fair a := by
  cases a with
  | submit now owner qos segments deadlineIn budget =>
    obtain ⟨state, why, -, heq⟩ := submitted_eq s.dev now owner qos segments deadlineIn budget
    cases hs
    have hjobs : (submitWithBudget s.dev now owner qos segments deadlineIn budget).2.jobs =
        s.dev.jobs ++
          [newJob s.dev.nextId owner qos segments deadlineIn now budget state why] := by
      rw [heq, temperatureLocked_eq]
      rfl
    refine iff_of_true ⟨?_, ?_⟩ trivial
    · dsimp only
      rw [hjobs]
      intro j hj
      rcases List.mem_append.mp hj with hj | hj
      · exact hc.jobs j hj
      · rw [List.mem_singleton.mp hj]
        refine (h.fresh _ fun i hi => ?_).symm
        exact Nat.ne_of_lt (h.inv.jobs i hi).below
    · dsimp only
      rw [hjobs, hc.sum, List.map_append, List.sum_append]
      rfl
  | wake =>
    unfold Ledger.step at hs
    cases hstage : s.stage with
    | asleep =>
      rw [hstage] at hs
      cases hs
      exact iff_of_true ⟨hc.jobs, hc.sum⟩ trivial
    | _ =>
      rw [hstage] at hs
      cases hs
  | choose =>
    unfold Ledger.step at hs
    cases hstage : s.stage with
    | choosing =>
      rw [hstage] at hs
      cases hs
      have hb : s.Between := fun id hrun => absurd (hstage.symm.trans hrun) nofun
      have hsum := sum_preemptions_choose h.inv.nodup
      have hfair : s.Fair .choose ↔ ∀ p ∈ s.dev.jobs, s.dev.lastRun = some p.id →
          p.state = .overBudget → ∀ j ∈ s.dev.jobs, ¬j.Pickable := forall_prop_of_true hstage
      rw [hfair]
      cases hm : pick s.dev.jobs with
      | none =>
        have hnone := pick_best h.inv.ids
        rw [hm] at hnone
        refine iff_of_true ⟨?_, ?_⟩ fun _ _ _ _ j hj hp => hnone j ⟨hj, hp⟩
        · show ∀ j ∈ (choose s.dev).2.jobs, j.preemptions = s.taken j.id + ite _ 1 0
          rw [choose_eq_none hm, takes_none hm]
          exact hc.jobs
        · show s.preempted + s.dev.preempts = _
          rw [hsum, hc.sum]
      | some m =>
        refine Iff.trans ⟨fun hc' => hc'.jobs, fun hjobs => ⟨hjobs, ?_⟩⟩
          (h.charged_choose hb hm hc)
        show s.preempted + s.dev.preempts = _
        rw [hsum, hc.sum]
    | _ =>
      rw [hstage] at hs
      cases hs
  | finish elapsed now =>
    unfold Ledger.step at hs
    cases hstage : s.stage with
    | running id =>
      rw [hstage] at hs
      cases hs
      have hjobs := h.inv.jobs_account id elapsed now
      have hsame : ∀ j : Job, (if j.id = id then j.segmentDone elapsed now else j).id = j.id ∧
          (if j.id = id then j.segmentDone elapsed now else j).preemptions = j.preemptions := by
        intro j
        split_ifs
        · rw [segmentDone_eq]
          exact ⟨rfl, rfl⟩
        · exact ⟨rfl, rfl⟩
      refine iff_of_true ⟨?_, ?_⟩ trivial
      · dsimp only
        rw [hjobs, List.forall_mem_map]
        intro j hj
        rw [(hsame j).1, (hsame j).2]
        exact hc.jobs j hj
      · dsimp only
        rw [hjobs, hc.sum, List.map_map]
        exact congrArg List.sum (List.map_congr_left fun j _ => (hsame j).2.symm)
    | _ =>
      rw [hstage] at hs
      cases hs

theorem Remembers.step (h : Remembers s) (hs : s.step a = some s') : Remembers s' := by
  have hinv : Inv 0 s' := h.inv.step (by cases a <;> first | exact Nat.zero_le _ | trivial) hs
  cases a with
  | submit now owner qos segments deadlineIn budget =>
    obtain ⟨state, why, -, heq⟩ := submitted_eq s.dev now owner qos segments deadlineIn budget
    cases hs
    have hjobs : (submitWithBudget s.dev now owner qos segments deadlineIn budget).2.jobs =
        s.dev.jobs ++
          [newJob s.dev.nextId owner qos segments deadlineIn now budget state why] := by
      rw [heq, temperatureLocked_eq]
      rfl
    have hlast : (submitWithBudget s.dev now owner qos segments deadlineIn budget).2.lastRun =
        s.dev.lastRun := by
      rw [heq, temperatureLocked_eq]
      rfl
    refine ⟨hinv, ?_, ?_, ?_, ?_⟩
    · dsimp only
      rw [hlast]
      exact h.running
    · dsimp only
      rw [hlast]
      exact h.last
    · dsimp only
      rw [hlast, hjobs]
      intro hb id elapsed rest hran
      refine (h.ran hb id elapsed rest hran).imp_right fun hnone p hp hid => ?_
      rcases List.mem_append.mp hp with hp | hp
      · exact hnone p hp hid
      · -- the new job has not run
        obtain ⟨j, hj, hjid⟩ := h.inv.ran (id, elapsed) (hran ▸ List.mem_cons_self)
        have hbelow := (h.inv.jobs j hj).below
        rw [List.mem_singleton.mp hp] at hid
        have hnew : s.dev.nextId = id := hid
        exact absurd hbelow (by rw [hjid, hnew]; exact Nat.lt_irrefl _)
    · dsimp only
      rw [hjobs]
      exact fun id hne => h.fresh id fun j hj => hne j (List.mem_append_left _ hj)
  | wake =>
    unfold Ledger.step at hs
    cases hstage : s.stage with
    | asleep =>
      rw [hstage] at hs
      cases hs
      have hb : s.Between := fun id hrun => absurd (hstage.symm.trans hrun) nofun
      exact ⟨hinv, nofun, fun _ => h.last hb, fun _ => h.ran hb, h.fresh⟩
    | _ =>
      rw [hstage] at hs
      cases hs
  | choose =>
    unfold Ledger.step at hs
    cases hstage : s.stage with
    | choosing =>
      rw [hstage] at hs
      cases hs
      have hfresh : ∀ id, (∀ j ∈ s.dev.jobs, j.id ≠ id) →
          s.taken id + (if s.takes = some id then 1 else 0) = 0 := by
        intro id hne
        rw [h.fresh id hne, if_neg]
        intro htakes
        cases hm : pick s.dev.jobs with
        | none => cases (takes_none hm).symm.trans htakes
        | some m =>
          obtain ⟨-, -, p, hp, hid, -⟩ := (takes_eq_some hm).mp htakes
          exact hne p hp hid
      rcases Option.eq_none_or_eq_some (pick s.dev.jobs) with hm | ⟨m, hm⟩
      · have hnone := pick_best h.inv.ids
        rw [hm] at hnone
        simp only [choose_eq_none hm] at hinv ⊢
        exact ⟨hinv, nofun, fun _ _ hlast => absurd hlast nofun,
          fun _ _ _ _ _ => .inr fun p hp _ hpick => hnone p ⟨hp, hpick⟩, hfresh⟩
      · have hjobs := jobs_choose h.inv.nodup hm
        refine ⟨hinv, ?_, ?_, ?_, ?_⟩
        · dsimp only
          rw [choose_eq hm]
          rintro id ⟨⟩
          rfl
        · rw [Between, choose_eq hm]
          exact fun hb => absurd rfl (hb m.id)
        · rw [Between, choose_eq hm]
          exact fun hb => absurd rfl (hb m.id)
        · dsimp only
          rw [hjobs]
          exact fun id hne => hfresh id fun j hj hji => hne _ (List.mem_map.mpr ⟨j, hj, rfl⟩) hji
    | _ =>
      rw [hstage] at hs
      cases hs
  | finish elapsed now =>
    unfold Ledger.step at hs
    cases hstage : s.stage with
    | running id =>
      rw [hstage] at hs
      cases hs
      have hlast : (account s.dev id elapsed now).lastRun = some id := by
        unfold account
        dsimp only
        rw [temperatureLocked_eq]
        exact h.running id hstage
      refine ⟨hinv, nofun, fun _ i hi => ?_, fun _ i e rest hran => .inl ?_, fun i hne => ?_⟩
      · cases hlast.symm.trans hi
        exact ⟨elapsed, s.ran, rfl⟩
      · cases hran
        exact hlast
      · refine h.fresh i fun j hj hji => ?_
        dsimp only at hne
        rw [h.inv.jobs_account, List.forall_mem_map] at hne
        refine hne j hj ?_
        split_ifs
        · rw [id_segmentDone, hji]
        · exact hji
    | _ =>
      rw [hstage] at hs
      cases hs

theorem Init.remembers (h : s.Init) : Remembers s := by
  refine ⟨h.inv, ?_, ?_, ?_, fun id _ => h.taken id⟩
  · rw [h.stage]
    exact nofun
  · rw [h.lastRun]
    exact nofun
  · rw [h.ran]
    exact nofun

theorem Init.charged (h : s.Init) : s.Charged := by
  refine ⟨?_, ?_⟩
  · rw [h.jobs]
    exact nofun
  · rw [h.preempted, h.jobs]
    rfl

/-- In a run every job is charged as often as the device is taken from it, and `PREEMPTIONS` is the
sum, exactly when no job waits whenever the worker chooses after one that has spent its budget. -/
theorem charged_iff (h : s.Init) (acts : List Act) :
    Run.Throughout Ledger.step Charged s acts ↔ Run.Meets Ledger.step Fair s acts := by
  refine Run.throughout_iff_meets Remembers (fun _ _ _ h _ hs => h.step hs)
    (fun _ _ _ h hc hs => h.charged_step hc hs) (fun s a _ hnone => ?_) h.remembers h.charged acts
  cases a with
  | choose =>
    -- a worker that chooses is not held up
    intro hstage
    unfold Ledger.step at hnone
    rw [hstage] at hnone
    cases hnone
  | _ => trivial

end

/-- A job that spends its budget of 4 mJ with the first of its two segments, and one that waits. -/
def demoWaiting : List Act :=
  [.submit 7 1 .background 2 none (some 4000), .submit 7 1 .background 1 none none, .choose,
    .finish 1600 8, .choose]

theorem charged_iff_demoWaiting : Run.Throughout Ledger.step Charged booted demoWaiting ↔
    Run.Meets Ledger.step Fair booted demoWaiting :=
  charged_iff init_booted demoWaiting

/-- The job that has ended is charged a preemption. -/
theorem ended_charged : ∃ s, Run.exec Ledger.step booted demoWaiting = some s ∧
    (∃ j ∈ s.dev.jobs, j.state = .overBudget ∧ j.preemptions = 1) ∧ ¬s.Charged := by
  have hrun : (Run.exec Ledger.step booted demoWaiting).map (fun s =>
      (s.dev.jobs.map fun j => (j.id, j.state, j.preemptions), s.taken 1)) =
      some ([(1, .overBudget, 1), (2, .running, 0)], 0) := by
    decide
  obtain ⟨s, hs, heq⟩ := Option.map_eq_some_iff.mp hrun
  obtain ⟨hjobs, htaken⟩ := Prod.mk.inj heq
  have hmem : (1, JobState.overBudget, 1) ∈ s.dev.jobs.map fun j => (j.id, j.state, j.preemptions) := by
    rw [hjobs]
    exact List.mem_cons_self
  obtain ⟨j, hj, hfields⟩ := List.mem_map.mp hmem
  obtain ⟨hid, hrest⟩ := Prod.mk.inj hfields
  obtain ⟨hstate, hcount⟩ := Prod.mk.inj hrest
  refine ⟨s, hs, ⟨j, hj, hstate, hcount⟩, fun hc => ?_⟩
  have hone := hc.jobs j hj
  rw [hid, hcount, htaken] at hone
  cases hone

end Ledger

end JungeyOs.Tensor
