import JungeyOs.Sched.Schedule
import JungeyOs.Time
import Mathlib.Order.Bounds.Basic

/-!
# Sleeping through ticks

Models of `wake_sleepers_and_survey` (`kernel/src/sched/mod.rs`, lines 410–440) and of `arm_next`
(`kernel/src/time.rs`, lines 120–144): a core looks at all threads in one pass, wakes those whose
sleep is over, and programs its timer for what is left. The counter is one number in a pass; the
timer compares 64 bits of it.

Results:
* `surveyFrom_eq`: what the pass does to the threads, and what it reports.
* `isLeast_tick`: the instant at which the tick counter reaches a tick.
* `survey_and_arm`: the states of the threads and the instant that is armed.
-/

namespace JungeyOs.Sched

open Time (Clock)

/-! ## The pass -/

/-- `earliest.map_or(until, |e| e.min(until))` (line 430). -/
def earlier (earliest : Option ℕ) (deadline : ℕ) : ℕ :=
  match earliest with
  | none => deadline
  | some e => min e deadline

/-- The pass at one thread (lines 424–436): the thread after it, `work` and `earliest`. -/
def surveyThread (now : ℕ) (work : Bool) (earliest : Option ℕ) (t : Thread) :
    Thread × Bool × Option ℕ :=
  match t.state with
  | .sleeping deadline =>
    if deadline ≤ now then ({ t with state := .runnable }, true, earliest)
    else (t, work, some (earlier earliest deadline))
  | .runnable => if t.affinity.isNone then (t, true, earliest) else (t, work, earliest)
  | _ => (t, work, earliest)

/-- The loop (lines 422–438). -/
def surveyFrom (now : ℕ) : (work : Bool) → (earliest : Option ℕ) → List Thread →
    List Thread × Bool × Option ℕ
  | work, earliest, [] => ([], work, earliest)
  | work, earliest, t :: threads =>
    let x := surveyThread now work earliest t
    let r := surveyFrom now x.2.1 x.2.2 threads
    (x.1 :: r.1, r.2)

/-- `wake_sleepers_and_survey` (lines 417–440), where the tick counter reads `now`: the threads after
it, `work` and `earliest`. -/
def wakeSleepersAndSurvey (now : ℕ) (threads : List Thread) : List Thread × Bool × Option ℕ :=
  surveyFrom now false none threads

/-! ## The timer -/

/-- `MAX_IDLE_TICKS` (line 35). -/
def MAX_IDLE_TICKS : ℕ := 100

/-- `arm_next` (lines 126–144): what `arm_at` is called with, if it is. `cycles` is the counter, and
sums and products are of 64 bits. -/
def armNext (c : Clock) (tickless : Bool) (cycles : ℕ) (haveWork : Bool)
    (earliestSleeper : Option ℕ) : Option ℕ :=
  if c.interval = 0 then none
  else if haveWork || !tickless then some ((cycles + c.interval) % 2 ^ 64)
  else
    let target := earliestSleeper.getD ((c.ticks cycles + MAX_IDLE_TICKS) % 2 ^ 64)
    let instant := (c.bootCycles + target * c.interval % 2 ^ 64) % 2 ^ 64
    some (max instant ((cycles + c.interval / 4) % 2 ^ 64))

/-! ## What the pass reports -/

/-- The thread sleeps, and its sleep is over. -/
def Thread.Due (t : Thread) (now : ℕ) : Prop := ∃ deadline ≤ now, t.state = .sleeping deadline

/-- The thread is runnable and not pinned. -/
def Thread.Works (t : Thread) : Prop := t.state = .runnable ∧ t.affinity = none

/-- The thread after the pass. -/
def Thread.woken (now : ℕ) (t : Thread) : Thread := { t with state := t.state.wakeSleeper now }

/-- A pass that began with `work` and `earliest` ends with `r`: some thread works or was due, and the
least of the deadlines that remain. -/
structure Reports (now : ℕ) (work : Bool) (earliest : Option ℕ) (threads : List Thread)
    (r : Bool × Option ℕ) : Prop where
  work : r.1 = true ↔ work = true ∨ ∃ t ∈ threads, t.Due now ∨ t.Works
  none : r.2 = none → earliest = none ∧ ∀ t ∈ threads, ∀ d, t.state = .sleeping d → d ≤ now
  some : ∀ e, r.2 = some e →
    (earliest = some e ∨ ∃ t ∈ threads, t.state = .sleeping e ∧ now < e) ∧
    (∀ e' ∈ earliest, e ≤ e') ∧ ∀ t ∈ threads, ∀ d, t.state = .sleeping d → now < d → e ≤ d

section

variable {now : ℕ} {work : Bool} {earliest : Option ℕ} {t : Thread} {threads : List Thread}

/-- A thread that does not sleep leaves the deadlines as they are. -/
theorem Reports.awake {work' : Bool} (hs : ∀ d, t.state ≠ .sleeping d)
    (hwork : work' = true ↔ work = true ∨ t.Works) :
    Reports now work earliest [t] (work', earliest) := by
  have hdue : ¬t.Due now := by
    rintro ⟨d, -, h⟩
    exact hs d h
  refine ⟨hwork.trans (or_congr Iff.rfl ?_), fun h => ⟨h, fun x hx d hd => ?_⟩,
    fun e he => ⟨.inl he, fun e' he' => ?_, fun x hx d hd => ?_⟩⟩
  · simp [hdue]
  · obtain rfl := List.mem_singleton.mp hx
    exact absurd hd (hs d)
  · exact (Option.some.inj (he.symm.trans he')).le
  · obtain rfl := List.mem_singleton.mp hx
    exact absurd hd (hs d)

/-- The pass at one thread. -/
theorem surveyThread_spec (now : ℕ) (work : Bool) (earliest : Option ℕ) (t : Thread) :
    (surveyThread now work earliest t).1 = t.woken now ∧
      Reports now work earliest [t] (surveyThread now work earliest t).2 := by
  unfold surveyThread Thread.woken
  cases hs : t.state with
  | sleeping deadline =>
    have hworks : ¬t.Works := fun h => by cases hs.symm.trans h.1
    have hsleep : ∀ d, t.state = .sleeping d → d = deadline := fun d hd =>
      (State.sleeping.inj (hs.symm.trans hd)).symm
    dsimp only [State.wakeSleeper]
    by_cases hdue : deadline ≤ now
    · rw [if_pos hdue, if_pos hdue]
      refine ⟨rfl, ⟨iff_of_true rfl (.inr ⟨t, List.mem_cons_self, .inl ⟨deadline, hdue, hs⟩⟩),
        fun h => ⟨h, fun x hx d hd => ?_⟩, fun e he => ⟨.inl he, fun e' he' => ?_,
          fun x hx d hd hlt => ?_⟩⟩⟩
      · obtain rfl := List.mem_singleton.mp hx
        rwa [hsleep d hd]
      · exact (Option.some.inj (he.symm.trans he')).le
      · obtain rfl := List.mem_singleton.mp hx
        have := hsleep d hd
        omega
    · have hlater : now < deadline := Nat.not_le.mp hdue
      have hdue' : ¬t.Due now := fun ⟨d, hle, hd⟩ => hdue (hsleep d hd ▸ hle)
      rw [if_neg hdue, if_neg hdue, ← hs]
      refine ⟨rfl, ⟨?_, fun h => (by cases h), fun e he => ?_⟩⟩
      · refine ⟨.inl, fun h => h.resolve_right ?_⟩
        rintro ⟨x, hx, hx'⟩
        obtain rfl := List.mem_singleton.mp hx
        exact hx'.elim hdue' hworks
      · obtain rfl := Option.some.inj he
        have hearlier : (earliest = some (earlier earliest deadline) ∨
            earlier earliest deadline = deadline) ∧ earlier earliest deadline ≤ deadline ∧
            ∀ e' ∈ earliest, earlier earliest deadline ≤ e' := by
          cases earliest with
          | none => exact ⟨.inr rfl, le_rfl, fun e' he' => (by cases he')⟩
          | some e =>
            refine ⟨?_, Nat.min_le_right e deadline, fun e' he' => ?_⟩
            · rcases Nat.le_total e deadline with hle | hle
              · exact .inl (congrArg _ (Nat.min_eq_left hle).symm)
              · exact .inr (Nat.min_eq_right hle)
            · obtain rfl := Option.some.inj he'
              exact Nat.min_le_left e deadline
        refine ⟨hearlier.1.imp_right fun heq => ⟨t, List.mem_cons_self, ?_, ?_⟩, hearlier.2.2,
          fun x hx d hd _ => ?_⟩
        · rw [heq, hs]
        · rwa [heq]
        · obtain rfl := List.mem_singleton.mp hx
          rw [hsleep d hd]
          exact hearlier.2.1
  | runnable =>
    dsimp only [State.wakeSleeper]
    rw [← hs]
    by_cases haff : t.affinity = none
    · rw [if_pos (Option.isNone_iff_eq_none.mpr haff)]
      exact ⟨rfl, .awake (by simp [hs]) (iff_of_true rfl (.inr ⟨hs, haff⟩))⟩
    · rw [if_neg fun h => haff (Option.isNone_iff_eq_none.mp h)]
      exact ⟨rfl, .awake (by simp [hs]) (or_iff_left fun h => haff h.2).symm⟩
  | _ =>
    have hworks : ¬t.Works := fun h => by cases hs.symm.trans h.1
    dsimp only [State.wakeSleeper]
    rw [← hs]
    exact ⟨rfl, .awake (by simp [hs]) (or_iff_left hworks).symm⟩

/-- A report on more threads continues one on those before. -/
theorem Reports.append {before after : List Thread} {r r' : Bool × Option ℕ}
    (h : Reports now work earliest before r) (h' : Reports now r.1 r.2 after r') :
    Reports now work earliest (before ++ after) r' where
  work := by
    rw [h'.work, h.work, or_assoc]
    refine or_congr Iff.rfl ?_
    simp only [List.mem_append, or_and_right, exists_or]
  none hr := by
    obtain ⟨hnone, hafter⟩ := h'.none hr
    obtain ⟨hearliest, hbefore⟩ := h.none hnone
    refine ⟨hearliest, fun t ht d hd => ?_⟩
    rcases List.mem_append.mp ht with ht | ht
    · exact hbefore t ht d hd
    · exact hafter t ht d hd
  some e he := by
    obtain ⟨hfrom, hle, hleast⟩ := h'.some e he
    -- the report before was no less
    have hbefore : (∀ e' ∈ earliest, e ≤ e') ∧
        ∀ t ∈ before, ∀ d, t.state = .sleeping d → now < d → e ≤ d := by
      cases hr : r.2 with
      | none =>
        obtain ⟨hnone, hpast⟩ := h.none hr
        refine ⟨fun e' he' => ?_, fun t ht d hd hlt => absurd (hpast t ht d hd) (Nat.not_le.mpr hlt)⟩
        rw [hnone] at he'
        cases he'
      | some e₁ =>
        obtain ⟨-, hle₁, hleast₁⟩ := h.some e₁ hr
        have hlt := hle e₁ hr
        exact ⟨fun e' he' => hlt.trans (hle₁ e' he'),
          fun t ht d hd hd' => hlt.trans (hleast₁ t ht d hd hd')⟩
    refine ⟨?_, hbefore.1, fun t ht d hd hlt => ?_⟩
    · rcases hfrom with hr | ⟨t, ht, hs⟩
      · rcases (h.some e hr).1 with hearliest | ⟨t, ht, hs⟩
        · exact .inl hearliest
        · exact .inr ⟨t, List.mem_append_left _ ht, hs⟩
      · exact .inr ⟨t, List.mem_append_right _ ht, hs⟩
    · rcases List.mem_append.mp ht with ht | ht
      · exact hbefore.2 t ht d hd hlt
      · exact hleast t ht d hd hlt

/-- The pass wakes those whose sleep is over, and reports on all. -/
theorem surveyFrom_spec (now : ℕ) (threads : List Thread) : ∀ work earliest,
    (surveyFrom now work earliest threads).1 = threads.map (Thread.woken now) ∧
      Reports now work earliest threads (surveyFrom now work earliest threads).2 := by
  induction threads with
  | nil =>
    refine fun work earliest => ⟨rfl, ⟨by simp [surveyFrom], fun h => ⟨h, by simp⟩,
      fun e he => ⟨.inl he, fun e' he' => ?_, by simp⟩⟩⟩
    exact (Option.some.inj (he.symm.trans he')).le
  | cons t threads ih =>
    intro work earliest
    obtain ⟨hthread, hreport⟩ := surveyThread_spec now work earliest t
    obtain ⟨hthreads, hreports⟩ := ih (surveyThread now work earliest t).2.1
      (surveyThread now work earliest t).2.2
    rw [surveyFrom]
    refine ⟨?_, hreport.append hreports⟩
    dsimp only
    rw [hthread, hthreads, List.map_cons]

theorem Thread.Due.woken (h : t.Due now) : (t.woken now).state = .runnable := by
  obtain ⟨d, hle, hs⟩ := h
  show t.state.wakeSleeper now = .runnable
  rw [hs, State.wakeSleeper, if_pos hle]

theorem Thread.woken_of_not_due (h : ¬t.Due now) : t.woken now = t := by
  have hsame : t.state.wakeSleeper now = t.state := by
    cases hs : t.state with
    | sleeping d => exact if_neg fun hle => h ⟨d, hle, hs⟩
    | _ => rfl
  rw [Thread.woken, hsame]

/-- Those that still sleep after the pass slept before, and are not due. -/
theorem woken_eq_sleeping {d : ℕ} :
    (t.woken now).state = .sleeping d ↔ t.state = .sleeping d ∧ now < d := by
  by_cases hdue : t.Due now
  · refine iff_of_false (fun h => ?_) fun ⟨hs, hlt⟩ => ?_
    · cases hdue.woken.symm.trans h
    · obtain ⟨d', hle, hs'⟩ := hdue
      obtain rfl := State.sleeping.inj (hs.symm.trans hs')
      omega
  · rw [Thread.woken_of_not_due hdue]
    exact ⟨fun hs => ⟨hs, Nat.not_le.mp fun hle => hdue ⟨d, hle, hs⟩⟩, And.left⟩

/-- There is work when an unpinned thread is runnable after the pass, or a pinned one was woken. -/
theorem work_iff : (∃ t ∈ threads, t.Due now ∨ t.Works) ↔
    (∃ t ∈ threads.map (Thread.woken now), t.Works) ∨
      ∃ t ∈ threads, t.Due now ∧ t.affinity ≠ none := by
  have hwoken : ∀ t : Thread, (t.woken now).Works ↔ t.affinity = none ∧ (t.Due now ∨ t.Works) := by
    intro t
    by_cases hdue : t.Due now
    · exact ⟨fun h => ⟨h.2, .inl hdue⟩, fun h => ⟨hdue.woken, h.1⟩⟩
    · rw [Thread.woken_of_not_due hdue]
      exact ⟨fun h => ⟨h.2, .inr h⟩, fun h => h.2.resolve_left hdue⟩
  constructor
  · rintro ⟨t, ht, h⟩
    by_cases haff : t.affinity = none
    · exact .inl ⟨_, List.mem_map_of_mem ht, (hwoken t).mpr ⟨haff, h⟩⟩
    · exact .inr ⟨t, ht, h.resolve_right fun hw => haff hw.2, haff⟩
  · rintro (⟨_, ht, h⟩ | ⟨t, ht, h, -⟩)
    · obtain ⟨s, hs, rfl⟩ := List.mem_map.mp ht
      exact ⟨s, hs, ((hwoken s).mp h).2⟩
    · exact ⟨t, ht, .inl h⟩

end

/-! ## Instants -/

section

variable {c : Clock} {cycles target : ℕ}

/-- The tick counter reaches a tick that many intervals after the origin. -/
theorem isLeast_tick (hinterval : 0 < c.interval) (htarget : 0 < target) :
    IsLeast {x | target ≤ c.ticks x} (c.bootCycles + target * c.interval) := by
  have hiff : ∀ x, target ≤ c.ticks x ↔ c.bootCycles + target * c.interval ≤ x := by
    intro x
    have hpos := Nat.mul_pos htarget hinterval
    rw [Clock.ticks, if_neg hinterval.ne', Nat.le_div_iff_mul_le hinterval]
    omega
  exact ⟨(hiff _).mpr le_rfl, fun x hx => (hiff x).mp hx⟩

/-- No sum and no product of a pass exceeds 64 bits. -/
structure Fits (c : Clock) (cycles : ℕ) (threads : List Thread) : Prop where
  quantum : cycles + c.interval < 2 ^ 64
  target : c.bootCycles + (wakeSleepersAndSurvey (c.ticks cycles) threads).2.2.getD
    (c.ticks cycles + MAX_IDLE_TICKS) * c.interval < 2 ^ 64

theorem armNext_work (hinterval : 0 < c.interval) (hfits : cycles + c.interval < 2 ^ 64)
    (earliest : Option ℕ) : armNext c true cycles true earliest = some (cycles + c.interval) := by
  rw [armNext, if_neg hinterval.ne', Bool.true_or, if_pos rfl, Nat.mod_eq_of_lt hfits]

theorem armNext_idle (hinterval : 0 < c.interval) (hfits : cycles + c.interval < 2 ^ 64)
    {earliest : Option ℕ}
    (htarget : c.bootCycles + earliest.getD (c.ticks cycles + MAX_IDLE_TICKS) * c.interval < 2 ^ 64) :
    armNext c true cycles false earliest = some (max
      (c.bootCycles + earliest.getD (c.ticks cycles + MAX_IDLE_TICKS) * c.interval)
      (cycles + c.interval / 4)) := by
  have hquarter : c.interval / 4 ≤ c.interval := Nat.div_le_self _ _
  have hget : earliest.getD ((c.ticks cycles + MAX_IDLE_TICKS) % 2 ^ 64) =
      earliest.getD (c.ticks cycles + MAX_IDLE_TICKS) := by
    cases earliest with
    | some e => rfl
    | none =>
      rw [Option.getD_none] at htarget
      have hle := Nat.le_mul_of_pos_right (c.ticks cycles + MAX_IDLE_TICKS) hinterval
      exact Nat.mod_eq_of_lt (by omega)
  rw [armNext, if_neg hinterval.ne', Bool.not_true, Bool.or_false, if_neg Bool.false_ne_true]
  dsimp only
  rw [hget, Nat.mod_eq_of_lt (a := _ * _) (by omega), Nat.mod_eq_of_lt htarget,
    Nat.mod_eq_of_lt (by omega)]

/-- After a pass with tickless idle on, exactly those threads whose sleep was over are woken, and they
are runnable. If an unpinned thread is runnable then, or a pinned one was woken, the timer is armed
one interval ahead. Otherwise it is armed at the instant at which the tick of the earliest sleeper
that remains is reached, or the tick `MAX_IDLE_TICKS` ahead, but not before a quarter of an interval
has gone by: no sleeper is overslept by more than that. -/
theorem survey_and_arm (c : Clock) (cycles : ℕ) (threads : List Thread) (hinterval : 0 < c.interval)
    (hfits : Fits c cycles threads) :
    let now := c.ticks cycles
    let r := wakeSleepersAndSurvey now threads
    let armed := armNext c true cycles r.2.1 r.2.2
    (r.1.length = threads.length ∧ ∀ (i : ℕ) (t : Thread), threads[i]? = some t →
      ∃ t' : Thread, r.1[i]? = some t' ∧ t' = { t with state := t'.state } ∧
        (t.Due now → t'.state = .runnable) ∧ (¬t.Due now → t'.state = t.state)) ∧
    (((∃ t ∈ r.1, t.Works) ∨ ∃ t ∈ threads, t.Due now ∧ t.affinity ≠ none) →
      armed = some (cycles + c.interval)) ∧
    (¬((∃ t ∈ r.1, t.Works) ∨ ∃ t ∈ threads, t.Due now ∧ t.affinity ≠ none) →
      ∃ target instant, armed = some (max instant (cycles + c.interval / 4)) ∧
        IsLeast {x | target ≤ c.ticks x} instant ∧
        ((∃ t ∈ r.1, t.state = .sleeping target) ∧
            (∀ t ∈ r.1, ∀ d, t.state = .sleeping d → target ≤ d) ∨
          (∀ t ∈ r.1, ∀ d, t.state ≠ .sleeping d) ∧ target = now + MAX_IDLE_TICKS) ∧
        ∀ t ∈ r.1, ∀ d, t.state = .sleeping d → ∀ due, IsLeast {x | d ≤ c.ticks x} due →
          max instant (cycles + c.interval / 4) ≤ due + c.interval / 4) := by
  intro now r armed
  obtain ⟨hthreads, hreports⟩ : r.1 = threads.map (Thread.woken now) ∧
      Reports now false none threads r.2 := surveyFrom_spec now threads false none
  have hwork : r.2.1 = true ↔ (∃ t ∈ r.1, t.Works) ∨ ∃ t ∈ threads, t.Due now ∧ t.affinity ≠ none := by
    rw [hthreads, ← work_iff, hreports.work]
    simp
  refine ⟨⟨?_, fun i t ht => ⟨t.woken now, ?_, rfl, Thread.Due.woken, fun h => ?_⟩⟩, fun h => ?_,
    fun h => ?_⟩
  · rw [hthreads, List.length_map]
  · rw [hthreads, List.getElem?_map, ht]
    rfl
  · rw [Thread.woken_of_not_due h]
  · show armNext c true cycles r.2.1 r.2.2 = _
    rw [hwork.mpr h]
    exact armNext_work hinterval hfits.quantum r.2.2
  · have hidle : r.2.1 = false := Bool.not_eq_true _ ▸ fun hw => h (hwork.mp hw)
    have harmed := armNext_idle hinterval hfits.quantum hfits.target
    have hsleeps : ∀ d, (∃ t ∈ r.1, t.state = .sleeping d) ↔
        ∃ t ∈ threads, t.state = .sleeping d ∧ now < d := fun d => by
      rw [hthreads]
      simp only [List.mem_map, exists_exists_and_eq_and, woken_eq_sleeping]
    -- the tick that is aimed at comes no later than that of any sleeper
    have htarget : ∀ target, r.2.2.getD (now + MAX_IDLE_TICKS) = target → 0 < target ∧
        ((∃ t ∈ r.1, t.state = .sleeping target) ∧
            (∀ t ∈ r.1, ∀ d, t.state = .sleeping d → target ≤ d) ∨
          (∀ t ∈ r.1, ∀ d, t.state ≠ .sleeping d) ∧ target = now + MAX_IDLE_TICKS) := by
      intro target htarget
      cases hearliest : r.2.2 with
      | none =>
        rw [hearliest, Option.getD_none] at htarget
        refine ⟨by unfold MAX_IDLE_TICKS at htarget; omega, .inr ⟨fun t ht d hd => ?_, htarget.symm⟩⟩
        obtain ⟨x, hx, hxd, hlt⟩ := (hsleeps d).mp ⟨t, ht, hd⟩
        exact absurd ((hreports.none hearliest).2 x hx d hxd) (Nat.not_le.mpr hlt)
      | some e =>
        rw [hearliest, Option.getD_some] at htarget
        subst htarget
        obtain ⟨hfrom, -, hleast⟩ := hreports.some e hearliest
        have hremains := hfrom.resolve_left fun h => by cases h
        obtain ⟨x, hx, hxe, hlt⟩ := hremains
        refine ⟨by omega, .inl ⟨(hsleeps e).mpr ⟨x, hx, hxe, hlt⟩, fun t ht d hd => ?_⟩⟩
        obtain ⟨y, hy, hyd, hlt'⟩ := (hsleeps d).mp ⟨t, ht, hd⟩
        exact hleast y hy d hyd hlt'
    obtain ⟨hpos, hcases⟩ := htarget _ rfl
    have hinstant := isLeast_tick hinterval hpos
    refine ⟨_, _, ?_, hinstant, hcases, fun t ht d hd due hdue => ?_⟩
    · show armNext c true cycles r.2.1 r.2.2 = _
      rw [hidle]
      exact harmed
    · have hle : r.2.2.getD (now + MAX_IDLE_TICKS) ≤ d := by
        rcases hcases with ⟨-, hleast⟩ | ⟨hnone, -⟩
        · exact hleast t ht d hd
        · exact absurd hd (hnone t ht d)
      have hlt : now < d := by
        obtain ⟨x, -, -, hlt⟩ := (hsleeps d).mp ⟨t, ht, hd⟩
        exact hlt
      obtain rfl := hdue.unique (isLeast_tick hinterval (by omega))
      -- the sleeper is not due yet
      have hlater : cycles < c.bootCycles + d * c.interval := by
        by_contra hpast
        have hticks : d ≤ c.ticks cycles := by
          rw [Clock.ticks, if_neg hinterval.ne', Nat.le_div_iff_mul_le hinterval]
          omega
        exact absurd hticks (Nat.not_le.mpr hlt)
      have hmul := Nat.mul_le_mul_right c.interval hle
      refine max_le ?_ ?_ <;> omega

end

/-- A thread that sleeps. -/
def asleep (deadline : ℕ) (affinity : Option ℕ) : Thread :=
  ⟨Context.empty, .sleeping deadline, 0, none, affinity, 0, 0⟩

/-- A clock of 100 cycles a tick. -/
def hundred : Clock := ⟨100, 0⟩

/-- One thread sleeps for five more ticks. -/
theorem survey_and_arm_asleep : ∃ target instant,
    armNext hundred true 1000 false (some 15) = some (max instant (1000 + 100 / 4)) ∧
      IsLeast {x | target ≤ hundred.ticks x} instant := by
  have hwork : ¬((∃ t ∈ [asleep 15 none], t.Works) ∨
      ∃ t ∈ [asleep 15 none], t.Due 10 ∧ t.affinity ≠ none) := by
    simp [Thread.Works, asleep]
  obtain ⟨target, instant, harmed, hinstant, -⟩ := (survey_and_arm hundred 1000 [asleep 15 none]
    (by decide) ⟨by decide, by decide⟩).2.2 hwork
  exact ⟨target, instant, harmed, hinstant⟩

/-- Where no unpinned thread is runnable, the timer may be armed an interval ahead, far from the
instant of the tick that is aimed at: a pinned thread was woken. It may be armed at once although
that instant is far, where the sum exceeds 64 bits, and not at all before the clock is started. And
with work to do a sleeper is overslept by almost an interval. -/
theorem survey_and_arm_pinned :
    ((∀ t ∈ (wakeSleepersAndSurvey (hundred.ticks 1000) [asleep 10 (some 0)]).1,
        ¬t.Works ∧ ∀ d, t.state ≠ .sleeping d) ∧
      armNext hundred true 1000
        (wakeSleepersAndSurvey (hundred.ticks 1000) [asleep 10 (some 0)]).2.1
        (wakeSleepersAndSurvey (hundred.ticks 1000) [asleep 10 (some 0)]).2.2 = some 1100 ∧
      IsLeast {x | hundred.ticks 1000 + MAX_IDLE_TICKS ≤ hundred.ticks x} 11000) ∧
    (armNext ⟨4, 2 ^ 64 - 8⟩ true (2 ^ 64 - 8) (wakeSleepersAndSurvey 0 []).2.1
        (wakeSleepersAndSurvey 0 []).2.2 = some (2 ^ 64 - 7) ∧
      IsLeast {x | 0 + MAX_IDLE_TICKS ≤ Clock.ticks ⟨4, 2 ^ 64 - 8⟩ x} (2 ^ 64 + 392)) ∧
    armNext ⟨0, 0⟩ true 1000 false none = none ∧
    (armNext hundred true 1099
        (wakeSleepersAndSurvey (hundred.ticks 1099) [asleep 10 none, asleep 11 none]).2.1
        (wakeSleepersAndSurvey (hundred.ticks 1099) [asleep 10 none, asleep 11 none]).2.2 =
          some 1199 ∧
      IsLeast {x | 11 ≤ hundred.ticks x} 1100) := by
  refine ⟨⟨?_, by decide, ?_⟩, ⟨by decide, ?_⟩, by decide, by decide, ?_⟩
  · intro t ht
    obtain rfl := List.mem_singleton.mp ht
    simp [Thread.Works, surveyThread, asleep, hundred, Clock.ticks]
  · exact isLeast_tick (c := hundred) (by decide) (by decide)
  · exact isLeast_tick (c := ⟨4, 2 ^ 64 - 8⟩) (by decide) (by decide)
  · exact isLeast_tick (c := hundred) (by decide) (by decide)

end JungeyOs.Sched
