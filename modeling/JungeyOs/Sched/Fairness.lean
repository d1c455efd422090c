import JungeyOs.Lib.RoundRobin
import JungeyOs.Sched.Handover
import Mathlib.Order.Bounds.Basic

/-!
# No thread is passed over for long

`pick_next` (`kernel/src/sched/mod.rs`, lines 278–300) goes round the thread table from the cursor
of the core. A runnable thread that no core has claimed is therefore taken after at most as many
calls of `schedule` on any one core as there are threads, whatever the other cores do meanwhile
and however many threads are spawned.

Results:
* `waiting_until_chosen`: a thread that waits for a core waits until a core chooses it.
* `distance_schedule`, `distance_step`: a core that passes a thread over comes closer to it, and
  nothing else takes it away from the thread.
* `chosen_within_a_round`: a thread is chosen in every run in which one core calls `schedule` as
  often as there are threads at its end.
-/

namespace JungeyOs.Sched

open RoundRobin

variable {s s' : Sys} {a : Act} {c t N : ℕ}

/-! ## The scan -/

/-- The tests of the loop of `pick_next` on thread `i` (lines 282–287). -/
def qualifies (threads : List Thread) (cpuId : ℕ) (cpu : Core) (i : ℕ) : Bool :=
  i != cpu.idle && i != cpu.current && (threads[i]?).any (eligible · cpuId)

/-- `pick_next` ends where its scan ends. -/
theorem pickNext_of_scan {threads : List Thread} {cpuId i : ℕ} {cpu : Core}
    (h : scan threads.length cpu.cursor (qualifies threads cpuId cpu) = some i) :
    pickNext threads cpuId cpu = i := by
  obtain ⟨step, hfind, rfl⟩ := Option.map_eq_some_iff.mp h
  have hcand : candidate threads cpuId cpu =
      fun step => qualifies threads cpuId cpu ((cpu.cursor + step) % threads.length) := rfl
  rw [pickNext, hcand, hfind]

/-! ## Waiting for a core -/

/-- The thread could run on any core, and no core has it. -/
def Waiting (s : Sys) (t : ℕ) : Prop :=
  ∃ th, s.threads[t]? = some th ∧ th.state = .runnable ∧ th.onCpu = none ∧ th.affinity = none

theorem Waiting.lt (h : Waiting s t) : t < s.threads.length := by
  obtain ⟨th, hth, -⟩ := h
  exact (List.getElem?_eq_some_iff.mp hth).1

theorem Waiting.ne_current (h : Waiting s t) (hclaims : Claims s) (hc : (s.cores c).place ≠ .off) :
    t ≠ (s.cores c).current := by
  obtain ⟨th, hth, -, hon, -⟩ := h
  intro heq
  obtain ⟨x, hx, hxon, -⟩ := hclaims.held c t ⟨hc, .inl heq⟩
  cases hth.symm.trans hx
  rw [hon] at hxon
  cases hxon

theorem Waiting.ne_idle (h : Waiting s t) (hclaims : Claims s) (hc : (s.cores c).place ≠ .off) :
    t ≠ (s.cores c).idle := by
  obtain ⟨th, hth, -, -, haff⟩ := h
  rintro rfl
  obtain ⟨x, hx, hxaff⟩ := hclaims.idle c hc
  cases hth.symm.trans hx
  rw [haff] at hxaff
  cases hxaff

theorem Waiting.qualifies (h : Waiting s t) (hclaims : Claims s) (hc : (s.cores c).place ≠ .off) :
    qualifies s.threads c (s.cores c) t = true := by
  have hcur := h.ne_current hclaims hc
  have hidle := h.ne_idle hclaims hc
  obtain ⟨th, hth, hstate, hon, haff⟩ := h
  simp [Sched.qualifies, eligible, hcur, hidle, hth, hstate, hon, haff]

theorem Waiting.restate {f : ℕ → State → State} (h : Waiting s t) (hf : f t .runnable = .runnable) :
    Waiting (s.restate f) t := by
  obtain ⟨th, hth, hstate, hon, haff⟩ := h
  refine ⟨{ th with state := f t th.state }, ?_, ?_, hon, haff⟩
  · rw [restate_get, hth]
    rfl
  · rw [hstate, hf]

theorem Waiting.withCurrent {f : State → State} (h : Waiting s t) (hclaims : Claims s)
    (hmay : s.mayLeave c = true) : Waiting (s.withCurrent c f) t := by
  simp only [Sys.mayLeave, Bool.and_eq_true, decide_eq_true_eq] at hmay
  have hne := h.ne_current hclaims (c := c) (by simp [hmay.1.1])
  exact h.restate (if_neg hne)

theorem Waiting.modify {f : Thread → Thread} {i : ℕ} {cores : ℕ → Core} {last : ℕ → Context}
    (h : Waiting s t)
    (hf : ∀ th, i = t → (f th).state = th.state ∧ (th.onCpu = none → (f th).onCpu = none) ∧
      (f th).affinity = th.affinity) : Waiting ⟨s.threads.modify i f, cores, last⟩ t := by
  obtain ⟨th, hth, hstate, hon, haff⟩ := h
  by_cases hi : i = t
  · obtain ⟨hfstate, hfon, hfaff⟩ := hf th hi
    refine ⟨f th, ?_, hfstate.trans hstate, hfon hon, hfaff.trans haff⟩
    rw [List.getElem?_modify, hth]
    simp [hi]
  · refine ⟨th, ?_, hstate, hon, haff⟩
    rw [List.getElem?_modify, hth]
    simp [hi]

theorem Waiting.push (h : Waiting s t) (th : Thread) (regs : Context) :
    Waiting (s.push th regs) t := by
  obtain ⟨x, hx, hrest⟩ := h
  exact ⟨x, append_get_old hx, hrest⟩

/-- A thread that waits for a core waits until a core chooses it. -/
theorem waiting_until_chosen (hclaims : Claims s) (h : Waiting s t) (hs : Sys.step s a = some s') :
    Waiting s' t ∨ ∃ d, a = .schedule d ∧ s' = s.claim d t := by
  cases a <;> simp only [Sys.step] at hs
  case adopt d ttbr0 =>
    split_ifs at hs
    cases hs
    exact .inl (h.push _ (s.cores d).regs)
  case spawn d trampoline entry arg stackTop ttbr0 =>
    split_ifs at hs
    cases hs
    exact .inl (h.push _ _)
  case start d tid =>
    split_ifs at hs
    cases hs
    refine .inl (h.restate ?_)
    split_ifs <;> rfl
  case attach d tid ttbr0 =>
    split_ifs at hs
    cases hs
    exact .inl (h.modify fun _ _ => ⟨rfl, id, rfl⟩)
  case compute d regs =>
    split_ifs at hs
    cases hs
    exact .inl h
  case sleep d deadline =>
    split_ifs at hs with hmay
    cases hs
    exact .inl (h.withCurrent hclaims hmay)
  case prepareBlock d token =>
    split_ifs at hs with hmay
    cases hs
    exact .inl (h.withCurrent hclaims hmay)
  case cancelBlock d =>
    split_ifs at hs with hmay
    cases hs
    exact .inl (h.withCurrent hclaims hmay)
  case exit d =>
    split_ifs at hs with hmay
    cases hs
    exact .inl (h.withCurrent hclaims hmay)
  case wakeAllOn d token =>
    split_ifs at hs
    cases hs
    exact .inl (h.restate rfl)
  case tick d now =>
    split_ifs at hs
    cases hs
    exact .inl (h.restate rfl)
  case schedule d =>
    split_ifs at hs with hplace hsame
    · cases hs
      exact .inl h
    · cases hs
      by_cases ht : pickNext s.threads d (s.cores d) = t
      · exact .inr ⟨d, rfl, congrArg (s.claim d) ht⟩
      · exact .inl (h.modify fun _ heq => absurd heq ht)
  case save d =>
    split at hs
    · cases hs
      exact .inl (h.modify fun _ _ => ⟨rfl, id, rfl⟩)
    · cases hs
  case restore d =>
    split at hs
    · cases hs
      exact .inl h
    · cases hs
  case finishSwitch d =>
    split_ifs at hs
    cases hs
    refine .inl ?_
    rw [Sys.finishSwitch]
    cases (s.cores d).releasePrev with
    | none => exact h
    | some prev => exact h.modify fun _ _ => ⟨rfl, fun _ => rfl, rfl⟩

/-! ## The cursors -/

/-- The cursors of the adopted cores lie in the table. -/
def Cursors (s : Sys) : Prop :=
  ∀ c, (s.cores c).place ≠ .off → (s.cores c).cursor < s.threads.length

/-- A step of another kind leaves the cursors where they are, but for a core that is adopted. -/
structure Steady (s s' : Sys) : Prop where
  length : s.threads.length ≤ s'.threads.length
  cursor : ∀ c, (s.cores c).place ≠ .off →
    (s'.cores c).place ≠ .off ∧ (s'.cores c).cursor = (s.cores c).cursor
  adopted : ∀ c, (s.cores c).place = .off → (s'.cores c).place ≠ .off →
    (s'.cores c).cursor < s'.threads.length

theorem Steady.of_cores {s' : Sys} (hlen : s.threads.length ≤ s'.threads.length)
    (hcores : ∀ c, ((s.cores c).place = .off ↔ (s'.cores c).place = .off) ∧
      (s'.cores c).cursor = (s.cores c).cursor) : Steady s s' :=
  ⟨hlen, fun c hc => ⟨fun h => hc ((hcores c).1.mpr h), (hcores c).2⟩,
    fun c hoff hon => absurd ((hcores c).1.mp hoff) hon⟩

theorem Steady.setCore {threads : List Thread} {last : ℕ → Context} {cpu : Core}
    (hlen : s.threads.length ≤ threads.length) (hplace : (s.cores c).place ≠ .off)
    (hon : cpu.place ≠ .off) (hcursor : cpu.cursor = (s.cores c).cursor) :
    Steady s (Sys.setCore ⟨threads, s.cores, last⟩ c cpu) := by
  refine .of_cores hlen fun d => ?_
  by_cases hd : d = c
  · subst hd
    simp only [Sys.setCore, Function.update_self]
    exact ⟨iff_of_false hplace hon, hcursor⟩
  · simp [Sys.setCore, hd]

/-- What the scheduler takes: the chosen thread, under the cursor of the core. -/
theorem did_steady (hd : Sys.Did s s') :
    Steady s s' ∨ ∃ c, (s.cores c).place = .running ∧
      pickNext s.threads c (s.cores c) ≠ (s.cores c).current ∧
      s' = s.claim c (pickNext s.threads c (s.cores c)) := by
  cases hd with
  | stay => exact .inl (.of_cores le_rfl fun _ => ⟨.rfl, rfl⟩)
  | @adopt c ttbr0 hoff =>
    refine .inl ⟨by simp [Sys.adopt, Sys.setCore, Sys.push], fun d hd => ?_, fun d _ hd => ?_⟩
    · have hne : d ≠ c := fun h => hd (h ▸ hoff)
      simp only [Sys.adopt, Sys.setCore, Function.update_of_ne hne]
      exact ⟨hd, rfl⟩
    · by_cases hne : d = c
      · subst hne
        simp [Sys.adopt, Sys.setCore, Sys.push]
      · simp only [Sys.adopt, Sys.setCore, Function.update_of_ne hne] at hd
        contradiction
  | push _ _ => exact .inl (.of_cores (by simp [Sys.push]) fun _ => ⟨.rfl, rfl⟩)
  | restate _ _ => exact .inl (.of_cores (by simp [Sys.restate]) fun _ => ⟨.rfl, rfl⟩)
  | attach tid ttbr0 => exact .inl (.of_cores (by simp) fun _ => ⟨.rfl, rfl⟩)
  | @compute c regs hplace =>
    have hon : (s.cores c).place ≠ .off := by simp [hplace]
    exact .inl (@Steady.setCore s c _ (s.compute c regs).last { s.cores c with regs := regs } le_rfl hon
      hon rfl)
  | @claim c hplace hne => exact .inr ⟨c, hplace, hne, rfl⟩
  | save hplace =>
    exact .inl (Steady.setCore (by simp) (by simp [hplace]) (by simp) rfl)
  | restore hplace =>
    exact .inl (Steady.setCore le_rfl (by simp [hplace]) (by simp) rfl)
  | @finishSwitch c hplace =>
    refine .inl (Steady.setCore ?_ (by simp [hplace]) (by simp) rfl)
    cases (s.cores c).releasePrev <;> simp

theorem Cursors.steady (h : Cursors s) (hd : Steady s s') : Cursors s' := by
  intro c hc
  by_cases hoff : (s.cores c).place = .off
  · exact hd.adopted c hoff hc
  · rw [(hd.cursor c hoff).2]
    exact (h c hoff).trans_le hd.length

/-- The state after a claim, seen from core `d`. -/
theorem claim_cores (s : Sys) (c next d : ℕ) :
    ((s.claim c next).cores d).cursor = (if d = c then next else (s.cores d).cursor) ∧
    (((s.claim c next).cores d).place = .off → (s.cores d).place = .off) ∧
    (s.claim c next).threads.length = s.threads.length := by
  by_cases hd : d = c
  · subst hd
    simp [Sys.claim, Sys.setCore]
  · simp [Sys.claim, Sys.setCore, hd]

theorem Cursors.claim (h : Cursors s) {next : ℕ} (hnext : next < s.threads.length) :
    Cursors (s.claim c next) := by
  intro d hd
  obtain ⟨hcursor, hoff, hlen⟩ := claim_cores s c next d
  rw [hcursor, hlen]
  split_ifs with hdc
  · exact hnext
  · refine h d fun hdoff => hd ?_
    simpa [Sys.claim, Sys.setCore, Function.update_of_ne hdc] using hdoff

/-- What `pick_next` chooses is in the table. -/
theorem pickNext_lt (hclaims : Claims s) (hplace : (s.cores c).place = .running) :
    pickNext s.threads c (s.cores c) < s.threads.length := by
  obtain ⟨th, hth, -⟩ := hclaims.pickNext hplace
  exact (List.getElem?_eq_some_iff.mp hth).1

theorem Cursors.step (h : Cursors s) (hclaims : Claims s) (hs : Sys.step s a = some s') :
    Cursors s' := by
  rcases did_steady (Sys.step_did hs) with hsteady | ⟨c, hplace, -, rfl⟩
  · exact h.steady hsteady
  · exact h.claim (pickNext_lt hclaims hplace)

/-! ## The distance of a core from a thread -/

/-- How many places a core has to go on until it comes to the thread, when there are `N` threads
in the end. -/
def distance (s : Sys) (c t N : ℕ) : ℕ :=
  if (s.cores c).place = .off then N else ahead N (s.cores c).cursor t

theorem distance_pos (hcursors : Cursors s) (ht : t < s.threads.length)
    (hN : s.threads.length ≤ N) : 0 < distance s c t N := by
  rw [distance]
  split_ifs with hoff
  · omega
  · have hc := hcursors c hoff
    exact ahead_pos (by omega)

theorem distance_le (hcursors : Cursors s) (ht : t < s.threads.length) (hN : s.threads.length ≤ N) :
    distance s c t N ≤ N := by
  rw [distance]
  split_ifs with hoff
  · exact le_rfl
  · have hc := hcursors c hoff
    exact ahead_le (by omega) (by omega)

/-- A core that calls `schedule` takes the thread or comes closer to it. -/
theorem distance_claim (hclaims : Claims s) (hcursors : Cursors s) (h : Waiting s t)
    (hplace : (s.cores c).place = .running) (hN : s.threads.length ≤ N)
    (hmiss : pickNext s.threads c (s.cores c) ≠ t) :
    pickNext s.threads c (s.cores c) ≠ (s.cores c).current ∧
      distance (s.claim c (pickNext s.threads c (s.cores c))) c t N < distance s c t N := by
  have hon : (s.cores c).place ≠ .off := by simp [hplace]
  obtain ⟨i, hscan, -, hi⟩ := scan_eq_or_ahead_lt hN (hcursors c hon) h.lt (h.qualifies hclaims hon)
  have hpick := pickNext_of_scan hscan
  obtain ⟨step, -, -, -, hqual, -⟩ := scan_spec hscan
  simp only [Sched.qualifies, Bool.and_eq_true, bne_iff_ne] at hqual
  rw [hpick] at hmiss ⊢
  refine ⟨hqual.1.2, ?_⟩
  have hlt := hi.resolve_left hmiss
  simpa [distance, Sys.claim, Sys.setCore, hplace] using hlt

theorem distance_steady (hcursors : Cursors s) (ht : t < s.threads.length) (hd : Steady s s')
    (hN : s'.threads.length ≤ N) : distance s' c t N ≤ distance s c t N := by
  by_cases hoff : (s.cores c).place = .off
  · have hle := distance_le (c := c) (hcursors.steady hd) (ht.trans_le hd.length) hN
    rw [distance, distance, if_pos hoff] at *
    exact hle
  · obtain ⟨hon, hcursor⟩ := hd.cursor c hoff
    rw [distance, distance, if_neg hoff, if_neg hon, hcursor]

/-- No step takes a core away from a thread that it does not choose. -/
theorem distance_step (hclaims : Claims s) (hcursors : Cursors s) (h : Waiting s t)
    (h' : Waiting s' t) (hs : Sys.step s a = some s') (hN : s'.threads.length ≤ N) :
    distance s' c t N ≤ distance s c t N := by
  rcases did_steady (Sys.step_did hs) with hsteady | ⟨d, hplace, -, rfl⟩
  · exact distance_steady hcursors h.lt hsteady hN
  · have hlen := (claim_cores s d (pickNext s.threads d (s.cores d)) d).2.2
    rw [hlen] at hN
    by_cases hdc : c = d
    · subst hdc
      by_cases hmiss : pickNext s.threads c (s.cores c) = t
      · -- the thread would have been claimed
        obtain ⟨th, hth, -, hon, -⟩ := h'
        rw [hmiss] at hth
        obtain ⟨x, hx, -⟩ := h
        simp [Sys.claim, Sys.setCore, hx] at hth
        rw [← hth] at hon
        cases hon
      · exact (distance_claim hclaims hcursors h hplace hN hmiss).2.le
    · simp [distance, Sys.claim, Sys.setCore, Function.update_of_ne hdc]

/-- A call of `schedule` brings the core closer to a thread that goes on waiting. -/
theorem distance_schedule (hclaims : Claims s) (hcursors : Cursors s) (h : Waiting s t)
    (hs : Sys.step s (.schedule c) = some s') (hmiss : s' ≠ s.claim c t)
    (hN : s'.threads.length ≤ N) : distance s' c t N < distance s c t N := by
  simp only [Sys.step] at hs
  split_ifs at hs with hplace hsame
  · -- the thread is another one than the current thread, and it would have been taken
    have hne : pickNext s.threads c (s.cores c) ≠ t := fun ht =>
      h.ne_current hclaims (by simp [hplace]) (ht.symm.trans hsame)
    exact absurd hsame (distance_claim hclaims hcursors h hplace le_rfl hne).1
  · cases hs
    rw [(claim_cores s c (pickNext s.threads c (s.cores c)) c).2.2] at hN
    exact (distance_claim hclaims hcursors h hplace hN fun ht => hmiss (congrArg _ ht)).2

/-! ## Runs -/

/-- The action is a call of `schedule` on core `c`. -/
def Act.schedules (c : ℕ) : Act → Bool
  | .schedule d => d = c
  | _ => false

/-- Some core chooses the thread and claims it in the run of `as` from `s`. -/
def Chosen (s : Sys) (as : List Act) (t : ℕ) : Prop :=
  ∃ pre d post s₁, as = pre ++ .schedule d :: post ∧ Run.exec Sys.step s pre = some s₁ ∧
    Sys.step s₁ (.schedule d) = some (s₁.claim d t)

theorem Chosen.cons {as : List Act} (hs : Sys.step s a = some s') (h : Chosen s' as t) :
    Chosen s (a :: as) t := by
  obtain ⟨pre, d, post, s₁, rfl, hexec, hclaim⟩ := h
  refine ⟨a :: pre, d, post, s₁, rfl, ?_, hclaim⟩
  rw [Run.exec, hs]
  exact hexec

theorem length_le_of_exec {as : List Act} (h : Run.exec Sys.step s as = some s') :
    s.threads.length ≤ s'.threads.length := by
  induction as generalizing s with
  | nil =>
    cases h
    exact le_rfl
  | cons a as ih =>
    obtain ⟨s₁, hs, hrest⟩ := Option.bind_eq_some_iff.mp h
    refine le_trans ?_ (ih hrest)
    rcases did_steady (Sys.step_did hs) with hsteady | ⟨c, -, -, rfl⟩
    · exact hsteady.length
    · exact ((claim_cores s c _ c).2.2).ge

/-- In a run in which no core chooses the thread, a core calls `schedule` less often than its
distance from the thread. -/
theorem count_lt_distance {as : List Act} (hclaims : Claims s) (hcursors : Cursors s)
    (h : Waiting s t) (hexec : Run.exec Sys.step s as = some s') (hN : s'.threads.length ≤ N)
    (hmiss : ¬Chosen s as t) : as.countP (Act.schedules c) < distance s c t N := by
  induction as generalizing s with
  | nil =>
    cases hexec
    exact distance_pos hcursors h.lt hN
  | cons a as ih =>
    obtain ⟨s₁, hs, hrest⟩ := Option.bind_eq_some_iff.mp hexec
    have hN₁ := (length_le_of_exec hrest).trans hN
    have hclaim : ∀ d, a = .schedule d → s₁ ≠ s.claim d t := by
      rintro d rfl rfl
      exact hmiss ⟨[], d, as, s, rfl, rfl, hs⟩
    have h₁ : Waiting s₁ t := by
      refine (waiting_until_chosen hclaims h hs).resolve_right ?_
      rintro ⟨d, ha, hd⟩
      exact hclaim d ha hd
    have hlt := ih (hclaims.did (Sys.step_did hs)) (hcursors.step hclaims hs) h₁ hrest
      fun hch => hmiss (hch.cons hs)
    rw [List.countP_cons]
    split_ifs with hsched
    · obtain rfl : a = .schedule c := by
        cases a with
        | schedule d => exact congrArg Act.schedule (of_decide_eq_true hsched)
        | _ => cases hsched
      have hcloser := distance_schedule hclaims hcursors h hs (hclaim c rfl) hN₁
      omega
    · exact hlt.trans_le (distance_step hclaims hcursors h h₁ hs hN₁)

/-- `Init` with the blocks of the cores as they are at boot (`Cpu::new`, `smp.rs`, lines 99–111). -/
def Boot (s : Sys) : Prop := Init s ∧ ∀ c, (s.cores c).cursor = 0

theorem cursors_of_boot (h : Boot s) : Cursors s := by
  obtain ⟨⟨cores, trampoline, entry, stackTop, ttbr0, rfl⟩, hcursor⟩ := h
  intro c _
  rw [hcursor c]
  exact Nat.zero_lt_two

/-- A thread that waits for a core is chosen by one in every run in which some core calls `schedule`
at least as often as there are threads at the end of the run. -/
theorem chosen_within_a_round {as : List Act} (hs : Run.Reachable Sys.step Run.always Boot s)
    (h : Waiting s t) (hexec : Run.exec Sys.step s as = some s')
    (hcount : s'.threads.length ≤ as.countP (Act.schedules c)) : Chosen s as t := by
  have hinv : Claims s ∧ Cursors s :=
    hs.invariant (fun s => Claims s ∧ Cursors s) (fun s hs => ⟨claims_init hs.1, cursors_of_boot hs⟩)
      fun s a s' ⟨hclaims, hcursors⟩ _ hs =>
        ⟨hclaims.did (Sys.step_did hs), hcursors.step hclaims hs⟩
  obtain ⟨hclaims, hcursors⟩ := hinv
  have hlen := length_le_of_exec hexec
  by_contra hmiss
  have hlt := count_lt_distance (c := c) hclaims hcursors h hexec le_rfl hmiss
  have hle := distance_le (c := c) hcursors h.lt hlen
  omega

/-- Core 0 with one more thread, which was started. -/
def oneMore : Sys :=
  let s := Sys.init (fun _ => ⟨0, 0, 0, 0, none, Context.empty, 0, .off⟩) 0x1000 0x3000 0x8000 0x400
  (Run.exec Sys.step s [.spawn 0 0x1000 0x2000 7 0x9000 0x400, .start 0 2]).getD s

/-- Three calls of `schedule`, with the switches. -/
def threeCalls : List Act :=
  [.schedule 0, .save 0, .restore 0, .finishSwitch 0, .schedule 0, .save 0, .restore 0,
    .finishSwitch 0, .schedule 0]

theorem chosen_within_a_round_oneMore : Chosen oneMore threeCalls 2 := by
  have hboot : Boot (Sys.init (fun _ => ⟨0, 0, 0, 0, none, Context.empty, 0, .off⟩)
      0x1000 0x3000 0x8000 0x400) :=
    ⟨⟨_, _, _, _, _, rfl⟩, fun c => by by_cases hc : c = 0 <;> simp [Sys.init, hc]⟩
  have hstart : Run.exec Sys.step (Sys.init (fun _ => ⟨0, 0, 0, 0, none, Context.empty, 0, .off⟩)
      0x1000 0x3000 0x8000 0x400) [.spawn 0 0x1000 0x2000 7 0x9000 0x400, .start 0 2] =
        some oneMore := rfl
  have hcalls : Run.exec Sys.step oneMore threeCalls =
      some ((Run.exec Sys.step oneMore threeCalls).getD oneMore) := rfl
  exact chosen_within_a_round (c := 0) (Run.reachable_of_exec hboot hstart) ⟨_, rfl, rfl, rfl, rfl⟩
    hcalls (by decide)

end JungeyOs.Sched
