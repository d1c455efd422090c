import JungeyOs.Lib.Run
import JungeyOs.Sched.State
import Mathlib.Logic.Function.Basic

/-!
# The scheduler

Models of `kernel/src/sched/mod.rs` (thread table, picking, switching) and of the
per-core block of `kernel/src/smp.rs` (lines 74–96), as a system of any number of
cores. `schedule` is split where it lets go of the scheduler lock: the choice under
the lock, the save and the restore of `cpu_switch_to`, and `finish_switch`. Interrupts
are masked from the choice to the end of `finish_switch`, so a core in between can
only take its next step.

Results:
* `pickNext_cases`: what `pick_next` may choose.
* `Sys.step_did`: everything a step can do.
-/

namespace JungeyOs.Sched

/-! ## Threads (lines 34–112) -/

/-- `Context` (lines 36–43). -/
structure Context where
  regs : Vector UInt64 10
  x29 : UInt64
  x30 : UInt64
  sp : UInt64
  deriving DecidableEq

/-- `Context::empty` (lines 46–48). -/
def Context.empty : Context := ⟨Vector.replicate 10 0, 0, 0, 0⟩

/-- `Context::new` (lines 50–58); `trampoline` is the address of `thread_trampoline`. -/
def Context.new (trampoline entry arg stackTop : UInt64) : Context :=
  { Context.empty with
    regs := (Context.empty.regs.set 0 entry).set 1 arg
    x30 := trampoline
    sp := stackTop }

/-- `Thread` (lines 89–112). -/
structure Thread where
  ctx : Context
  state : State
  slices : ℕ
  onCpu : Option ℕ
  affinity : Option ℕ
  cpusSeen : UInt64
  ttbr0 : UInt64

/-! ## Cores -/

/-- Where a core stands. -/
inductive Place
  /-- not yet adopted -/
  | off
  /-- in the code of its current thread -/
  | running
  /-- in `schedule`, with the choice made and `prev` not saved yet -/
  | saving (prev next : ℕ)
  /-- in `cpu_switch_to`, with `prev` saved and `next` not restored yet -/
  | restoring (prev next : ℕ)
  /-- back from `cpu_switch_to`, before `finish_switch` -/
  | finishing
  deriving DecidableEq

/-- `Cpu` (`smp.rs`, lines 74–96), with the registers of the core and the address
space that is active on it. A null `release_prev` is `none`. -/
structure Core where
  current : ℕ
  idle : ℕ
  cursor : ℕ
  switches : ℕ
  releasePrev : Option ℕ
  regs : Context
  ttbr0 : UInt64
  place : Place

/-- The thread whose code the core executes. -/
def Core.executing (cpu : Core) : Option ℕ :=
  match cpu.place with
  | .running => some cpu.current
  | .finishing => some cpu.current
  | .saving prev _ => some prev
  | .restoring _ _ => none
  | .off => none

/-! ## Picking (lines 264–300) -/

/-- `eligible` (lines 265–274). -/
def eligible (t : Thread) (cpuId : ℕ) : Bool :=
  t.state = .runnable && t.onCpu.isNone && t.affinity.all (· == cpuId)

/-- The test on the thread that the scan comes to at `step` (lines 281–287). -/
def candidate (threads : List Thread) (cpuId : ℕ) (cpu : Core) (step : ℕ) : Bool :=
  let i := (cpu.cursor + step) % threads.length
  i != cpu.idle && i != cpu.current && (threads[i]?).any (eligible · cpuId)

/-- `pick_next` (lines 278–300). -/
def pickNext (threads : List Thread) (cpuId : ℕ) (cpu : Core) : ℕ :=
  match (List.range' 1 threads.length).find? (candidate threads cpuId cpu) with
  | some step => (cpu.cursor + step) % threads.length
  | none =>
    if (threads[cpu.current]?).any (·.state = .runnable) ∧ cpu.current ≠ cpu.idle then cpu.current
    else cpu.idle

/-- What `pick_next` may choose: an eligible thread, the current one if it can go on,
or the idle thread of the core. -/
theorem pickNext_cases (threads : List Thread) (cpuId : ℕ) (cpu : Core) :
    let i := pickNext threads cpuId cpu
    (i ≠ cpu.idle ∧ i ≠ cpu.current ∧ ∃ t, threads[i]? = some t ∧ t.state = .runnable ∧
      t.onCpu = none ∧ ∀ a, t.affinity = some a → a = cpuId) ∨
    (i = cpu.current ∧ ∃ t, threads[i]? = some t ∧ t.state = .runnable) ∨ i = cpu.idle := by
  intro i
  unfold i pickNext
  cases hf : (List.range' 1 threads.length).find? (candidate threads cpuId cpu) with
  | some step =>
    have hc := List.find?_some hf
    simp only [candidate, Bool.and_eq_true, bne_iff_ne, Option.any_eq_true] at hc
    obtain ⟨⟨hidle, hcur⟩, t, ht, he⟩ := hc
    simp only [eligible, Bool.and_eq_true, decide_eq_true_eq, Option.isNone_iff_eq_none] at he
    obtain ⟨⟨hstate, hon⟩, haff⟩ := he
    refine .inl ⟨hidle, hcur, t, ht, hstate, hon, fun a ha => ?_⟩
    rw [ha] at haff
    exact beq_iff_eq.mp haff
  | none =>
    dsimp only
    split_ifs with h
    · obtain ⟨t, ht, hstate⟩ := (Option.any_eq_true _ _).mp h.1
      exact .inr (.inl ⟨rfl, t, ht, of_decide_eq_true hstate⟩)
    · exact .inr (.inr rfl)

/-- The address space of a core after `schedule` has changed it for the chosen thread
(lines 336–340). -/
def activated (threads : List Thread) (prev next : ℕ) (ttbr0 : UInt64) : UInt64 :=
  match threads[prev]?, threads[next]? with
  | some p, some n => if n.ttbr0 ≠ p.ttbr0 then n.ttbr0 else ttbr0
  | _, _ => ttbr0

/-! ## The system -/

/-- `last` records the registers with which each thread last ran. -/
structure Sys where
  threads : List Thread
  cores : ℕ → Core
  last : ℕ → Context

/-- A step of core `c`. -/
inductive Act
  | adopt (c : ℕ) (ttbr0 : UInt64)
  | spawn (c : ℕ) (trampoline entry arg stackTop ttbr0 : UInt64)
  | start (c tid : ℕ)
  | attach (c tid : ℕ) (ttbr0 : UInt64)
  | compute (c : ℕ) (regs : Context)
  | sleep (c deadline : ℕ)
  | prepareBlock (c token : ℕ)
  | cancelBlock (c : ℕ)
  | exit (c : ℕ)
  | wakeAllOn (c token : ℕ)
  | tick (c now : ℕ)
  | schedule (c : ℕ)
  | save (c : ℕ)
  | restore (c : ℕ)
  | finishSwitch (c : ℕ)

namespace Sys

def setCore (s : Sys) (c : ℕ) (cpu : Core) : Sys := { s with cores := Function.update s.cores c cpu }

/-- Every thread changes its state. -/
def restate (s : Sys) (f : ℕ → State → State) : Sys :=
  { s with threads := s.threads.mapIdx fun i t => { t with state := f i t.state } }

/-- `with_current` (lines 529–538), on the state of the current thread. -/
def withCurrent (s : Sys) (c : ℕ) (f : State → State) : Sys :=
  s.restate fun i state => if i = (s.cores c).current then f state else state

/-- The current thread of the core may leave the run queue. An idle thread only runs
`idle_loop`, and one that called `thread_exit` only calls `schedule`. -/
def mayLeave (s : Sys) (c : ℕ) : Bool :=
  (s.cores c).place = .running && (s.cores c).current != (s.cores c).idle &&
    (s.threads[(s.cores c).current]?).all (·.state ≠ .finished)

/-- A new thread of the table, with the registers that it starts from. -/
def push (s : Sys) (t : Thread) (regs : Context) : Sys :=
  { s with threads := s.threads ++ [t], last := Function.update s.last s.threads.length regs }

/-- `adopt_as_idle` (lines 161–200). -/
def adopt (s : Sys) (c : ℕ) (ttbr0 : UInt64) : Sys :=
  let id := s.threads.length
  (s.push ⟨Context.empty, .runnable, 1, some c, some c, 1 <<< UInt64.ofNat c, ttbr0⟩
    (s.cores c).regs).setCore c { s.cores c with
      current := id, idle := id, cursor := id, releasePrev := none, ttbr0 := ttbr0, place := .running }

/-- `schedule` under the lock, after another thread was chosen (lines 317–330). -/
def claim (s : Sys) (c next : ℕ) : Sys :=
  let cpu := s.cores c
  setCore { s with threads := s.threads.modify next fun t =>
      { t with onCpu := some c, slices := t.slices + 1,
               cpusSeen := t.cpusSeen ||| (1 <<< UInt64.ofNat c) } } c
    { cpu with releasePrev := some cpu.current, cursor := next, current := next,
               switches := cpu.switches + 1, place := .saving cpu.current next }

/-- `activate` and the first half of `cpu_switch_to` (lines 336–341 and `switch.s`). -/
def save (s : Sys) (c prev next : ℕ) : Sys :=
  let cpu := s.cores c
  setCore { s with threads := s.threads.modify prev fun t => { t with ctx := cpu.regs } } c
    { cpu with ttbr0 := activated s.threads prev next cpu.ttbr0, place := .restoring prev next }

/-- The second half of `cpu_switch_to`. -/
def restore (s : Sys) (c next : ℕ) : Sys :=
  let cpu := s.cores c
  s.setCore c { cpu with
    regs := ((s.threads[next]?).map Thread.ctx).getD cpu.regs, place := .finishing }

/-- `finish_switch` (lines 355–365). -/
def finishSwitch (s : Sys) (c : ℕ) : Sys :=
  let cpu := s.cores c
  let threads := match cpu.releasePrev with
    | none => s.threads
    | some prev => s.threads.modify prev fun t => { t with onCpu := none }
  setCore { s with threads := threads } c { cpu with releasePrev := none, place := .running }

/-- The code of the current thread computes. -/
def compute (s : Sys) (c : ℕ) (regs : Context) : Sys :=
  { s.setCore c { s.cores c with regs := regs } with
    last := Function.update s.last (s.cores c).current regs }

def step (s : Sys) : Act → Option Sys
  | .adopt c ttbr0 => if (s.cores c).place = .off then some (s.adopt c ttbr0) else none
  -- `spawn_stopped` (lines 210–212 and 237–262)
  | .spawn c trampoline entry arg stackTop ttbr0 =>
    if (s.cores c).place = .running then
      let ctx := Context.new trampoline entry arg stackTop
      some (s.push ⟨ctx, .new, 0, none, none, 0, ttbr0⟩ ctx)
    else none
  -- `start` (lines 223–235)
  | .start c tid =>
    if (s.cores c).place = .running then
      some (s.restate fun i state => if i = tid then state.start else state)
    else none
  -- `attach_process` (lines 542–550)
  | .attach c tid ttbr0 =>
    if (s.cores c).place = .running then
      some { s with threads := s.threads.modify tid fun t => { t with ttbr0 := ttbr0 } }
    else none
  | .compute c regs => if (s.cores c).place = .running then some (s.compute c regs) else none
  -- `sleep_ticks` (lines 460–466)
  | .sleep c deadline =>
    if s.mayLeave c then some (s.withCurrent c fun _ => .sleeping deadline) else none
  -- `prepare_block` (lines 482–484)
  | .prepareBlock c token =>
    if s.mayLeave c then some (s.withCurrent c fun _ => .blocked token) else none
  -- `cancel_block` (lines 487–493)
  | .cancelBlock c => if s.mayLeave c then some (s.withCurrent c State.cancel) else none
  -- `thread_exit` (lines 563–568)
  | .exit c => if s.mayLeave c then some (s.withCurrent c fun _ => .finished) else none
  -- `wake_all_on` (lines 509–526)
  | .wakeAllOn c token =>
    if (s.cores c).place = .running then some (s.restate fun _ => State.wake token) else none
  -- `wake_sleepers_and_survey` (lines 422–446)
  | .tick c now =>
    if (s.cores c).place = .running then some (s.restate fun _ => State.wakeSleeper now) else none
  -- `schedule` under the lock (lines 309–332)
  | .schedule c =>
    if (s.cores c).place = .running then
      let next := pickNext s.threads c (s.cores c)
      some (if next = (s.cores c).current then s else s.claim c next)
    else none
  | .save c =>
    match (s.cores c).place with
    | .saving prev next => some (s.save c prev next)
    | _ => none
  | .restore c =>
    match (s.cores c).place with
    | .restoring _ next => some (s.restore c next)
    | _ => none
  | .finishSwitch c => if (s.cores c).place = .finishing then some (s.finishSwitch c) else none

/-- What a step can do. -/
inductive Did (s : Sys) : Sys → Prop
  | stay : Did s s
  | adopt {c : ℕ} (ttbr0 : UInt64) : (s.cores c).place = .off → Did s (s.adopt c ttbr0)
  | push {t : Thread} : t.onCpu = none → t.affinity = none → Did s (s.push t t.ctx)
  /-- Only the thread that a core runs stops to be runnable, and never an idle thread. -/
  | restate {f : ℕ → State → State} : (∀ i state, f i state = .new → state = .new) →
      (∀ i, f i .runnable = .runnable ∨ ∃ c, (s.cores c).place = .running ∧
        i = (s.cores c).current ∧ i ≠ (s.cores c).idle) → Did s (s.restate f)
  | attach (tid : ℕ) (ttbr0 : UInt64) :
      Did s { s with threads := s.threads.modify tid fun t => { t with ttbr0 := ttbr0 } }
  | compute {c : ℕ} (regs : Context) : (s.cores c).place = .running → Did s (s.compute c regs)
  | claim {c : ℕ} : (s.cores c).place = .running →
      pickNext s.threads c (s.cores c) ≠ (s.cores c).current →
      Did s (s.claim c (pickNext s.threads c (s.cores c)))
  | save {c prev next : ℕ} : (s.cores c).place = .saving prev next → Did s (s.save c prev next)
  | restore {c prev next : ℕ} : (s.cores c).place = .restoring prev next → Did s (s.restore c next)
  | finishSwitch {c : ℕ} : (s.cores c).place = .finishing → Did s (s.finishSwitch c)

theorem start_eq_new {state : State} (h : state.start = .new) : False := by
  cases state <;> cases h

theorem wakeSleeper_eq_new {now : ℕ} {state : State} (h : state.wakeSleeper now = .new) :
    state = .new := by
  cases state with
  | sleeping deadline =>
    dsimp only [State.wakeSleeper] at h
    split_ifs at h
  | _ => exact h

/-- The current thread changes its state. -/
theorem did_withCurrent {s : Sys} {c : ℕ} {f : State → State} (hmay : s.mayLeave c = true)
    (hf : ∀ state, f state = .new → state = .new) : Did s (s.withCurrent c f) := by
  simp only [mayLeave, Bool.and_eq_true, decide_eq_true_eq, bne_iff_ne] at hmay
  obtain ⟨⟨hplace, hne⟩, -⟩ := hmay
  refine .restate (fun i state h => ?_) fun i => ?_
  · split_ifs at h
    · exact hf state h
    · exact h
  · by_cases hi : i = (s.cores c).current
    · exact .inr ⟨c, hplace, hi, hi ▸ hne⟩
    · exact .inl (if_neg hi)

/-- Everything a step can do. -/
theorem step_did {s s' : Sys} {a : Act} (hs : step s a = some s') : Did s s' := by
  cases a <;> simp only [step] at hs
  case adopt c ttbr0 =>
    split_ifs at hs with hoff
    cases hs
    exact .adopt ttbr0 hoff
  case spawn c trampoline entry arg stackTop ttbr0 =>
    split_ifs at hs
    cases hs
    exact .push (t := ⟨Context.new trampoline entry arg stackTop, .new, 0, none, none, 0, ttbr0⟩) rfl rfl
  case start c tid =>
    split_ifs at hs
    cases hs
    refine .restate (fun i state h => ?_) fun i => .inl ?_
    · split_ifs at h
      · exact (start_eq_new h).elim
      · exact h
    · split_ifs <;> rfl
  case attach c tid ttbr0 =>
    split_ifs at hs
    cases hs
    exact .attach tid ttbr0
  case compute c regs =>
    split_ifs at hs with hplace
    cases hs
    exact .compute regs hplace
  case sleep c deadline =>
    split_ifs at hs with hmay
    cases hs
    exact did_withCurrent hmay fun _ h => by cases h
  case prepareBlock c token =>
    split_ifs at hs with hmay
    cases hs
    exact did_withCurrent hmay fun _ h => by cases h
  case cancelBlock c =>
    split_ifs at hs with hmay
    cases hs
    refine did_withCurrent hmay fun state h => ?_
    cases state with
    | blocked token => cases h
    | _ => exact h
  case exit c =>
    split_ifs at hs with hmay
    cases hs
    exact did_withCurrent hmay fun _ h => by cases h
  case wakeAllOn c token =>
    split_ifs at hs
    cases hs
    refine .restate (fun i state h => ?_) fun i => .inl rfl
    unfold State.wake at h
    split_ifs at h
    exact h
  case tick c now =>
    split_ifs at hs
    cases hs
    exact .restate (fun i state => wakeSleeper_eq_new) fun i => .inl rfl
  case schedule c =>
    split_ifs at hs with hplace hsame
    · cases hs
      exact .stay
    · cases hs
      exact .claim hplace hsame
  case save c =>
    split at hs
    · rename_i prev next hplace
      cases hs
      exact .save hplace
    · cases hs
  case restore c =>
    split at hs
    · rename_i prev next hplace
      cases hs
      exact .restore hplace
    · cases hs
  case finishSwitch c =>
    split_ifs at hs with hplace
    cases hs
    exact .finishSwitch hplace

end Sys

end JungeyOs.Sched
