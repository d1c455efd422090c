import JungeyOs.Tensor.Serve

/-!
# Deadlines of one class

All jobs are of one class. What a new job is admitted on counts all the work on the device,
so at any time the work up to a job with a deadline fits it: a job that is admitted later and
comes first has an earlier deadline, by which everything admitted before is finished too.

Results:
* `covered`: the work that `submit_with_budget` counts covers the segment in progress.
* `onTime_step`: every step keeps the deadlines.
* `deadlines_kept`: a job that was admitted with a deadline is finished no later.
-/

namespace JungeyOs.Tensor

section

variable {c : ℕ} {s s' : Sys} {a : Act} {x j n : Job} {jobs : List Job} {q : Qos}
  {r : (ℕ ×ₗ ℕ) ×ₗ ℕ}

/-! ## What a submission counts -/

theorem total_le_ahead
    (hqos : ∀ j ∈ jobs, j.Pickable → j.rank ≤ r → j.qos.toNat ≤ q.toNat) :
    total c jobs r * c ≤ ahead jobs q c := by
  induction jobs with
  | nil => exact Nat.le_of_eq (Nat.zero_mul c)
  | cons j jobs ih =>
    have ih := ih fun i hi => hqos i (List.mem_cons_of_mem _ hi)
    have htotal : total c (j :: jobs) r = (if j.rank ≤ r then j.todo c else 0) + total c jobs r := rfl
    have hahead : ahead jobs q c ≤ ahead (j :: jobs) q c := by
      unfold ahead
      exact ((List.sublist_cons_self j jobs).filter _ |>.map _).sum_le_sum fun _ _ => Nat.zero_le _
    rw [htotal, Nat.add_mul]
    by_cases hcount : j.Pickable ∧ j.rank ≤ r
    · obtain ⟨hp, hr⟩ := hcount
      have hcounted : ahead (j :: jobs) q c =
          (j.segments - j.doneSegments) * c + ahead jobs q c := by
        unfold ahead
        rw [List.filter_cons_of_pos (by simpa using ⟨hp.1, hqos j List.mem_cons_self hp hr⟩),
          List.map_cons, List.sum_cons]
      rw [if_pos hr, hcounted]
      exact Nat.add_le_add (Nat.mul_le_mul_right c todo_le) ih
    · have hzero : (if j.rank ≤ r then j.todo c else 0) = 0 := by
        by_cases hr : j.rank ≤ r
        · rw [if_pos hr, todo_of_not_pickable fun hp => hcount ⟨hp, hr⟩]
        · exact if_neg hr
      rw [hzero, Nat.zero_mul, Nat.zero_add]
      exact ih.trans hahead

/-- The work that a submission counts is the work before a place that comes before all lower
classes, and the rest of the segment in progress if that is of no lower class. -/
theorem covered (h : Valid c s)
    (hqos : ∀ j ∈ s.dev.jobs, j.Pickable → j.rank ≤ r → j.qos.toNat ≤ q.toNat)
    (hrun : ∀ m ∈ s.dev.jobs, ∀ started, s.worker = .running m.id started c →
      m.qos.toNat ≤ q.toNat) :
    s.rest + (total c s.dev.jobs r - s.inProgress r) * c ≤ ahead s.dev.jobs q c := by
  cases hw : s.worker with
  | running id started len =>
    obtain ⟨rfl, hfrom, hto, m, hm, rfl, hp⟩ := h.running id started len hw
    have hrest : s.rest ≤ len := by
      simp only [Sys.rest, hw]
      omega
    have hmq := hrun m hm started hw
    rw [h.inProgress_running hm hw]
    -- the work up to the later one of both places has the segment in progress
    have hlater : total len s.dev.jobs r - (if m.rank ≤ r then 1 else 0) + 1 ≤
        total len s.dev.jobs (max r m.rank) := by
      by_cases hr : m.rank ≤ r
      · have hpos := (todo_pos (c := len) hp).trans_le (le_total hm hr)
        rw [if_pos hr, max_eq_left hr]
        omega
      · have hlt := total_lt (c := len) hm hp (not_le.mp hr) (le_max_right r m.rank)
        rw [if_neg hr]
        omega
    have hmul := Nat.mul_le_mul_right len hlater
    have hmax : total len s.dev.jobs (max r m.rank) * len ≤ ahead s.dev.jobs q len :=
      total_le_ahead fun j hj hjp hjr => by
        rcases le_max_iff.mp hjr with hjr | hjr
        · exact hqos j hj hjp hjr
        · exact (qos_le_of_rank hjr).trans hmq
    rw [Nat.succ_mul] at hmul
    omega
  | _ =>
    have hrest : s.rest = 0 := by simp only [Sys.rest, hw]
    rw [hrest, Nat.zero_add]
    exact (Nat.mul_le_mul_right c (Nat.sub_le _ _)).trans (total_le_ahead hqos)

/-! ## The invariant -/

/-- Submissions of class `q` with a segment at least and a deadline that is no overflow, and
segments that take `us_per_segment`. -/
def Uniform (q : Qos) (s : Sys) : Act → Prop
  | .submit _ qos segments deadlineIn _ =>
    qos = q ∧ 0 < segments ∧ ∀ window, deadlineIn = some window → s.now + window ≤ U64_MAX
  | .choose len => len = s.dev.usPerSegment
  | _ => True

/-- The job was refused, is over in time, or will be if nothing more is submitted. -/
def Job.Met (c : ℕ) (s : Sys) (j : Job) : Prop :=
  j.state = .refused ∨ (j.Ended ∧ ∀ d, j.deadlineUs = some d → j.finishedUs ≤ d) ∨
    j.Pickable ∧ ∀ d, j.deadlineUs = some d → d ≤ U64_MAX ∧ s.finishAt c j.rank ≤ d

structure OnTime (c : ℕ) (q : Qos) (s : Sys) : Prop extends Valid c s where
  qos : ∀ j ∈ s.dev.jobs, j.qos = q
  met : ∀ j ∈ s.dev.jobs, j.Met c s
  spent : ∀ j ∈ s.dev.jobs, j.state = .overBudget → SpentOut j.energyBudgetUj j.energyUj

/-- A job that waits or runs has work. -/
theorem Job.Met.pickable (h : j.Met c s) (hl : j.Live) : j.Pickable := by
  rcases h with hr | ⟨he, -⟩ | ⟨hp, -⟩
  · rcases hl with hl | hl <;> rw [hr] at hl <;> cases hl
  · rcases he with he | he <;> rcases hl with hl | hl <;> rw [he] at hl <;> cases hl
  · exact hp

/-- A job that is the same is met as before. -/
theorem Job.Met.same (h : j.Met c s) (hsame : j.Same n)
    (hfinish : j.Pickable → s'.finishAt c j.rank = s.finishAt c j.rank) : n.Met c s' := by
  have hstate : ¬j.Live → n.state = j.state := fun hl =>
    hsame.state.resolve_right fun hrun => hl hrun.1
  have hdeadline : n.deadlineUs = j.deadlineUs := by rw [hsame.fields]
  have hfinished : n.finishedUs = j.finishedUs := by rw [hsame.fields]
  rcases h with hr | ⟨he, hd⟩ | ⟨hp, hd⟩
  · refine .inl ((hstate ?_).trans hr)
    rintro (hl | hl) <;> rw [hr] at hl <;> cases hl
  · have hl : ¬j.Live := by
      rintro (hl | hl) <;> rcases he with he | he <;> rw [he] at hl <;> cases hl
    refine .inr (.inl ⟨?_, ?_⟩)
    · unfold Job.Ended
      rwa [hstate hl]
    · rwa [hdeadline, hfinished]
  · refine .inr (.inr ⟨hsame.pickable.mpr hp, ?_⟩)
    rw [hdeadline, hsame.rank, hfinish hp]
    exact hd

theorem OnTime.served (h : OnTime c q s) (hs : Served c s s') : OnTime c q s' := by
  obtain ⟨g, hg, hnext⟩ := hs.next h.toValid
  refine ⟨h.toValid.served hs, ?_, ?_, ?_⟩
  · rw [hg]
    intro j' hj'
    obtain ⟨j, hj, rfl⟩ := List.mem_map.mp hj'
    exact (hnext j hj).qos_eq.trans (h.qos j hj)
  · rw [hg]
    intro j' hj'
    obtain ⟨j, hj, rfl⟩ := List.mem_map.mp hj'
    have hmet := h.met j hj
    have hfinish : j.Pickable → s'.finishAt c j.rank = s.finishAt c j.rank :=
      finishAt_served h.toValid hs hj
    cases hnext j hj with
    | same hsame => exact hmet.same hsame hfinish
    | ran c' started hw hend hb hp heq =>
      obtain ⟨rfl, -⟩ := h.running _ _ _ hw
      rw [heq]
      have hd : ∀ d, j.deadlineUs = some d → d ≤ U64_MAX ∧ s.finishAt c' j.rank ≤ d := by
        rcases hmet with hr | ⟨he, -⟩ | ⟨-, hd⟩
        · rcases hp.1 with hl | hl <;> rw [hr] at hl <;> cases hl
        · rcases hp.1 with hl | hl <;> rcases he with he | he <;> rw [he] at hl <;> cases hl
        · exact hd
      have hdeadline : (j.segmentDone c' s.now).deadlineUs = j.deadlineUs := by
        unfold Job.segmentDone
        dsimp only
        split_ifs <;> rfl
      rcases (segmentDone_cases (c := c') hp s.now).2 with hp' | ⟨he, hfin⟩
      · refine .inr (.inr ⟨hp', ?_⟩)
        rw [hdeadline, rank_segmentDone, hfinish hp]
        exact hd
      · refine .inr (.inl ⟨he, ?_⟩)
        rw [hdeadline, hfin]
        intro d hjd
        have hle : s.now ≤ s.finishAt c' j.rank :=
          (Nat.le_add_right _ _).trans (Nat.le_add_right _ _)
        exact hle.trans (hd d hjd).2
  · rw [hg]
    intro j' hj'
    obtain ⟨j, hj, rfl⟩ := List.mem_map.mp hj'
    exact (hnext j hj).spent (h.spent j hj)

/-- A new job of the same class that comes before one with a deadline has an earlier one. -/
theorem earlier_deadline (h : OnTime c q s) (hs : Pushed s s' x) (hq : x.qos = q)
    (hj : j ∈ s.dev.jobs) {d : ℕ} (hd : j.deadlineUs = some d) (hmax : d ≤ U64_MAX)
    (hr : x.rank ≤ j.rank) : ∃ d', x.deadlineUs = some d' ∧ d' < d := by
  have hlt : x.urgency < j.urgency := by
    rcases Prod.Lex.toLex_le_toLex.mp hr with hlt | ⟨-, hid⟩
    · exact hlt
    · have hid' : x.id ≤ j.id := hid
      rw [hs.id] at hid'
      exact absurd (h.below j hj) (Nat.not_lt.mpr hid')
  have hkey : x.deadlineUs.getD U64_MAX < d := by
    rcases Prod.Lex.toLex_lt_toLex.mp hlt with hlt | ⟨-, hlt⟩
    · have hlt' : x.qos.toNat < j.qos.toNat := hlt
      rw [hq, h.qos j hj] at hlt'
      exact absurd hlt' (Nat.lt_irrefl _)
    · have hlt' : x.deadlineUs.getD U64_MAX < j.deadlineUs.getD U64_MAX := hlt
      rwa [hd] at hlt'
  cases hx : x.deadlineUs with
  | none =>
    rw [hx] at hkey
    exact absurd hkey (Nat.not_lt.mpr hmax)
  | some d' =>
    rw [hx] at hkey
    exact ⟨d', rfl, hkey⟩

theorem OnTime.submit (h : OnTime c q s) {owner segments : ℕ} {qos : Qos}
    {deadlineIn budget : Option ℕ} (hok : Uniform q s (.submit owner qos segments deadlineIn budget))
    (hs : s.step (.submit owner qos segments deadlineIn budget) = some s') : OnTime c q s' := by
  obtain ⟨rfl, hsegments, hmax⟩ := hok
  obtain ⟨x, hpush, hdeadline, hq, hx⟩ := pushed hs
  -- what an admitted job finds at any place, with its own work, fits its window
  have hfits : ∀ r window, x.state ≠ .refused → deadlineIn = some window →
      s.finishAt c r + x.todo c * c ≤ s.now + window := by
    intro r window hnr hw
    obtain ⟨rfl, hfits⟩ := hx.resolve_left hnr
    have hcovered := covered (q := qos) (r := r) h.toValid
      (fun j hj _ _ => by rw [h.qos j hj]) fun m hm _ _ => by rw [h.qos m hm]
    have htodo := Nat.mul_le_mul_right c
      (todo_le (c := c) (j := newJob s.dev.nextId owner qos segments deadlineIn s.now budget .queued ""))
    have hneeded := hfits window hw
    rw [h.cost] at hneeded
    have hown : (newJob s.dev.nextId owner qos segments deadlineIn s.now budget .queued "").segments -
        (newJob s.dev.nextId owner qos segments deadlineIn s.now budget .queued "").doneSegments =
        segments := rfl
    rw [hown] at htodo
    unfold Sys.finishAt
    omega
  have hrefused : x.state = .refused → x.todo c = 0 := fun hr => by
    refine todo_of_not_pickable ?_
    rintro ⟨hl | hl, -⟩ <;> rw [hr] at hl <;> cases hl
  refine ⟨h.toValid.pushed hpush, ?_, ?_, ?_⟩
  · rw [hpush.jobs]
    intro j hj
    rcases List.mem_append.mp hj with hj | hj
    · exact h.qos j hj
    · rw [List.mem_singleton.mp hj, hq]
  · rw [hpush.jobs]
    intro j hj
    rcases List.mem_append.mp hj with hj | hj
    · rcases h.met j hj with hr | he | ⟨hp, hd⟩
      · exact .inl hr
      · exact .inr (.inl he)
      · refine .inr (.inr ⟨hp, fun d hjd => ⟨(hd d hjd).1, ?_⟩⟩)
        rw [finishAt_pushed h.toValid hpush]
        by_cases hr : x.rank ≤ j.rank
        · rw [if_pos hr]
          by_cases hxr : x.state = .refused
          · rw [hrefused hxr, Nat.zero_mul]
            exact (hd d hjd).2
          · obtain ⟨d', hd', hlt⟩ := earlier_deadline h hpush hq hj hjd (hd d hjd).1 hr
            rw [hdeadline] at hd'
            obtain ⟨window, hw, rfl⟩ := Option.map_eq_some_iff.mp hd'
            exact (hfits j.rank window hxr hw).trans hlt.le
        · rw [if_neg hr, Nat.zero_mul]
          exact (hd d hjd).2
    · rw [List.mem_singleton.mp hj]
      rcases hx with hr | ⟨hxe, -⟩
      · exact .inl hr
      · have hnr : x.state ≠ .refused := by
          rw [hxe]
          exact nofun
        refine .inr (.inr ⟨?_, fun d hd => ?_⟩)
        · rw [hxe]
          exact ⟨.inl rfl, hsegments⟩
        · rw [hdeadline] at hd
          obtain ⟨window, hw, rfl⟩ := Option.map_eq_some_iff.mp hd
          refine ⟨hmax window hw, ?_⟩
          rw [finishAt_pushed h.toValid hpush, if_pos le_rfl]
          exact hfits x.rank window hnr hw
  · rw [hpush.jobs]
    intro j hj hover
    rcases List.mem_append.mp hj with hj | hj
    · exact h.spent j hj hover
    · rw [List.mem_singleton.mp hj] at hover
      rcases hx with hr | ⟨hxe, -⟩
      · rw [hr] at hover
        cases hover
      · rw [hxe] at hover
        cases hover

theorem onTime_step (h : OnTime c q s) (hok : Uniform q s a) (hs : s.step a = some s') :
    OnTime c q s' := by
  cases a with
  | submit owner qos segments deadlineIn budget => exact h.submit hok hs
  | choose len => exact h.served (served h.toValid (a := .choose len) hok hs)
  | tick us => exact h.served (served h.toValid (a := .tick us) trivial hs)
  | finish => exact h.served (served h.toValid (a := .finish) trivial hs)

/-! ## Runs -/

/-- Job `j` of deadline `d` is over in time, or it is not yet too late and the worker will finish
it. -/
structure Job.Kept (s : Sys) (j : Job) (d : ℕ) : Prop where
  ended : j.Ended → j.finishedUs ≤ d
  cut : j.state = .overBudget → SpentOut j.energyBudgetUj j.energyUj
  waits : ¬j.Ended → s.now ≤ d ∧ ∃ t, s.Serves t ∧ t.Ended j.id

end

/-- In every run of submissions of one class and segments that take `us_per_segment`, a job that
was admitted with a deadline is finished no later, and no sooner cut short than its energy
budget is spent. -/
theorem deadlines_kept (c now : ℕ) (q : Qos) {s : Sys}
    (h : Run.Reachable Sys.step (Uniform q) (· = Sys.init c now) s) :
    ∀ j ∈ s.dev.jobs, j.state ≠ .refused → ∀ d, j.deadlineUs = some d → j.Kept s d := by
  have hinv : OnTime c q s := by
    refine h.invariant (OnTime c q) ?_ fun s a s' h hok hs => onTime_step h hok hs
    rintro s rfl
    exact ⟨valid_init c now, nofun, nofun, nofun⟩
  intro j hj hnr d hd
  have hmet := (hinv.met j hj).resolve_left hnr
  refine ⟨fun he => ?_, hinv.spent j hj, fun he => ?_⟩
  · rcases hmet with ⟨-, hin⟩ | ⟨hp, -⟩
    · exact hin d hd
    · rcases hp.1 with hl | hl <;> rcases he with he | he <;> rw [he] at hl <;> cases hl
  · obtain ⟨hp, hin⟩ := hmet.resolve_left fun hover => he hover.1
    have hle : s.now ≤ s.finishAt c j.rank := (Nat.le_add_right _ _).trans (Nat.le_add_right _ _)
    exact ⟨hle.trans (hin d hd).2, ends hinv.toValid hj hp⟩

/-- The second job is admitted in the middle of the first segment, and comes first after it. -/
def twoJobs : List Act :=
  [.submit 7 .foreground 2 (some 20) none, .choose 2, .tick 1,
    .submit 8 .foreground 1 (some 6) none, .tick 1, .finish,
    .choose 2, .tick 2, .finish, .choose 2, .tick 2, .finish]

theorem deadlines_kept_twoJobs :
    ∃ t, Run.exec Sys.step (Sys.init 2 1) twoJobs = some t ∧
      t.dev.jobs.map (fun j => (j.deadlineUs, j.finishedUs)) = [(some 21, 7), (some 8, 5)] ∧
      ∀ j ∈ t.dev.jobs, j.state ≠ .refused → ∀ d, j.deadlineUs = some d → j.Kept t d := by
  have hfirst : ∀ window, some 20 = some window → 1 + window ≤ U64_MAX := by
    rintro window ⟨⟩
    decide
  have hsecond : ∀ window, some 6 = some window → 2 + window ≤ U64_MAX := by
    rintro window ⟨⟩
    decide
  have hmeets : Run.Meets Sys.step (Uniform .foreground) (Sys.init 2 1) twoJobs :=
    .cons rfl ⟨rfl, by decide, hfirst⟩ <| .cons rfl rfl <| .cons rfl trivial <|
      .cons rfl ⟨rfl, by decide, hsecond⟩ <| .cons rfl trivial <| .cons rfl trivial <|
      .cons rfl rfl <| .cons rfl trivial <| .cons rfl trivial <|
      .cons rfl rfl <| .cons rfl trivial <| .cons rfl trivial trivial
  have hstart : Run.Reachable Sys.step (Uniform .foreground) (· = Sys.init 2 1) (Sys.init 2 1) :=
    .start rfl
  exact ⟨_, rfl, rfl, deadlines_kept 2 1 .foreground (hstart.exec hmeets rfl)⟩

end JungeyOs.Tensor
