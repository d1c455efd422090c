import JungeyOs.Sched.State
import JungeyOs.Tensor.Ledger
import Mathlib.Data.Int.Notation
import Mathlib.Logic.Function.Basic

/-!
# Waiting for a job

Threads in `sys_tensor_wait` (`syscall.rs`, lines 390–405), the worker with its wake-ups
(`tensor.rs`, lines 446–538), submitters and timer ticks (`sched/mod.rs`, lines 416–460), interleaved
at the points where they hold a lock or read the clock. Any thread may take its next step at any
time, on any core. A tick wakes sleepers only; a thread that waits for a job looks at the clock
before it blocks, and when it has been woken.

Results:
* `Inv.step`: a thread is blocked only while its job has not ended, or is about to be woken.
* `woken_in_time`: no tick leaves a thread blocked past its deadline, in runs where the job of each
  such thread has ended and its wake-up has been made.
* `outlives_timeout`: a tick after the deadline leaves a thread blocked.
-/

namespace JungeyOs.Tensor

open Sched (State)

/-! ## The system -/

/-- `ETIMEDOUT` (`syscall.rs`, line 38). -/
def ETIMEDOUT : ℤ := -6

/-- `token` (`tensor.rs`, lines 555–558). -/
def token (id : ℕ) : ℕ := 0x7E4500000000 ||| id

namespace Wait

/-- Where a thread stands; `marked` says that `finished_or_prepare` has marked it as blocked, which
it does if the job exists. -/
inductive Pc
  | user
  | returned (value : ℤ)
  /-- at the head of the loop (line 394) -/
  | check (id deadline : ℕ)
  /-- before it looks at the clock (line 399) -/
  | unfinished (id deadline : ℕ) (marked : Bool)
  /-- before `cancel_block` (line 400) -/
  | late (id deadline : ℕ) (marked : Bool)
  /-- in `sched::block` (line 403) -/
  | block (id deadline : ℕ) (marked : Bool)

/-- A thread that is not in the call. -/
def Pc.free : Pc → Bool
  | .user => true
  | .returned _ => true
  | _ => false

/-- The wait that a thread is in. -/
def Pc.waits : Pc → Option (ℕ × ℕ × Bool)
  | .user => none
  | .returned _ => none
  | .check id deadline => some (id, deadline, false)
  | .unfinished id deadline marked => some (id, deadline, marked)
  | .late id deadline marked => some (id, deadline, marked)
  | .block id deadline marked => some (id, deadline, marked)

/-- `waking` is the job whose waiters the worker is about to wake, `ticks` the clock, and `swept` the
time of the tick that has just been processed. -/
structure Sys where
  ledger : Ledger
  waking : Option ℕ
  ticks : ℕ
  state : ℕ → State
  pc : ℕ → Pc
  swept : Option ℕ

/-- `work` is a step of a submitter or of the worker, `rouse` any other wake-up. -/
inductive Act
  | work (a : Ledger.Act)
  | wake
  | rouse (token : ℕ)
  | pass (n : ℕ)
  | tick
  | sleep (t deadline : ℕ)
  | wait (t id timeout : ℕ)
  | check (t : ℕ)
  | look (t : ℕ)
  | cancel (t : ℕ)
  | unblock (t : ℕ)

/-- `finished_or_prepare` (`tensor.rs`, lines 542–553): what it returns, and the state of the thread;
`none` within is a job that goes on. -/
def finishedOrPrepare (dev : Device) (id : ℕ) (state : State) : Option (Option Bool) × State :=
  match Dir.lookup Job.id dev.jobs id with
  | none => (none, state)
  | some j =>
    match j.state with
    | .done => (some (some true), state)
    | .refused => (some (some false), state)
    | .overBudget => (some (some false), state)
    | _ => (some none, .blocked (token id))

/-- The job that `worker` has finished with a segment of job `id` (`tensor.rs`, lines 509–527). -/
def finished (dev : Device) (id : ℕ) : Option ℕ :=
  match Dir.lookup Job.id dev.jobs id with
  | some j => if j.state = .done ∨ j.state = .overBudget then some id else none
  | none => none

namespace Sys

def goto (s : Sys) (t : ℕ) (p : Pc) : Sys := { s with pc := Function.update s.pc t p }

def setState (s : Sys) (t : ℕ) (state : State) : Sys :=
  { s with state := Function.update s.state t state }

/-- `finished_or_prepare` and what its caller does with the answer. -/
def check (s : Sys) (t id deadline : ℕ) : Sys :=
  match finishedOrPrepare s.ledger.dev id (s.state t) with
  | (some (some true), state) => (s.setState t state).goto t (.returned 1)
  | (some (some false), state) => (s.setState t state).goto t (.returned 0)
  | (some none, state) => (s.setState t state).goto t (.unfinished id deadline true)
  | (none, state) => (s.setState t state).goto t (.unfinished id deadline false)

/-- A step of a submitter, or of the worker, which first makes its wake-ups. -/
def work (s : Sys) : Ledger.Act → Option Sys
  | .submit now owner qos segments deadlineIn energyBudgetUj =>
    (s.ledger.step (.submit now owner qos segments deadlineIn energyBudgetUj)).map fun ledger =>
      { s with ledger := ledger }
  | .finish elapsed now =>
    match s.waking, s.ledger.stage with
    | none, .running id =>
      (s.ledger.step (.finish elapsed now)).map fun ledger =>
        { s with ledger := ledger, waking := finished ledger.dev id }
    | _, _ => none
  | a =>
    match s.waking with
    | none => (s.ledger.step a).map fun ledger => { s with ledger := ledger }
    | some _ => none

/-- What a step does, but for `swept`. -/
def move (s : Sys) : Act → Option Sys
  | .work a => s.work a
  | .wake =>
    match s.waking with
    | some id => some { s with waking := none, state := fun t => (s.state t).wake (token id) }
    | none => none
  | .rouse token => some { s with state := fun t => (s.state t).wake token }
  | .pass n => some { s with ticks := s.ticks + n }
  | .tick => some { s with state := fun t => (s.state t).wakeSleeper s.ticks }
  | .sleep t deadline => if (s.pc t).free then some (s.setState t (.sleeping deadline)) else none
  | .wait t id timeout =>
    if (s.pc t).free then some (s.goto t (.check id (s.ticks + max timeout 1))) else none
  | .check t =>
    match s.pc t with
    | .check id deadline => some (s.check t id deadline)
    | _ => none
  | .look t =>
    match s.pc t with
    | .unfinished id deadline marked =>
      some (s.goto t (if deadline < s.ticks then .late id deadline marked
        else .block id deadline marked))
    | _ => none
  | .cancel t =>
    match s.pc t with
    | .late _ _ _ => some ((s.setState t (s.state t).cancel).goto t (.returned ETIMEDOUT))
    | _ => none
  | .unblock t =>
    match s.pc t with
    | .block id deadline _ =>
      if s.state t = .blocked (token id) then some s else some (s.goto t (.check id deadline))
    | _ => none

def step (s : Sys) (a : Act) : Option Sys :=
  (s.move a).map fun s' => { s' with swept := match a with
    | .tick => some s.ticks
    | _ => none }

/-- At boot: no job, and no thread is blocked or waits. -/
structure Init (s : Sys) : Prop where
  ledger : s.ledger.Init
  waking : s.waking = none
  state : ∀ t token, s.state t ≠ .blocked token
  pc : ∀ t, s.pc t = .user
  swept : s.swept = none

/-! ## The claim -/

/-- The tick that has just been processed has left no thread blocked past its deadline. -/
def InTime (s : Sys) : Prop :=
  ∀ now, s.swept = some now → ∀ t id deadline marked,
    (s.pc t).waits = some (id, deadline, marked) → deadline < now →
      s.state t ≠ .blocked (token id)

/-- When a tick is processed, the job of each thread that `finished_or_prepare` has marked and whose
deadline is over has ended, and the worker has woken its waiters. -/
def Timely (s : Sys) : Act → Prop
  | .tick => ∀ t id deadline, (s.pc t).waits = some (id, deadline, true) → deadline < s.ticks →
      s.waking ≠ some id ∧ ∃ j ∈ s.ledger.dev.jobs, j.id = id ∧ j.Final
  | _ => True

/-! ## The invariant -/

/-- The job has not ended, or its waiters are about to be woken. -/
def Pending (s : Sys) (id : ℕ) : Prop :=
  ∃ j ∈ s.ledger.dev.jobs, j.id = id ∧ (j.Final → s.waking = some id)

structure Inv (s : Sys) : Prop where
  ledger : s.ledger.Inv 0
  blocked : ∀ t tok, s.state t = .blocked tok →
    ∃ id deadline, (s.pc t).waits = some (id, deadline, true) ∧ tok = token id ∧ s.Pending id

section

variable {s s' : Sys} {a : Act} {b : Ledger.Act} {j : Job} {t id : ℕ}

theorem Pc.waits_of_free {p : Pc} (h : p.free = true) : p.waits = none := by
  cases p with
  | user => rfl
  | returned value => rfl
  | _ => cases h

/-- A step that goes on with one thread, whose state may change too. -/
theorem Inv.thread (h : Inv s) {state : State} {p : Pc}
    (hblocked : ∀ tok, state = .blocked tok →
      ∃ id deadline, p.waits = some (id, deadline, true) ∧ tok = token id ∧ s.Pending id) :
    Inv ((s.setState t state).goto t p) := by
  refine ⟨h.ledger, fun u tok hu => ?_⟩
  by_cases hut : u = t
  · subst hut
    have hstate : Function.update s.state u state u = .blocked tok := hu
    rw [Function.update_self] at hstate
    show ∃ id deadline, (Function.update s.pc u p u).waits = _ ∧ _
    rw [Function.update_self]
    exact hblocked tok hstate
  · have hstate : Function.update s.state t state u = .blocked tok := hu
    rw [Function.update_of_ne hut] at hstate
    show ∃ id deadline, (Function.update s.pc t p u).waits = _ ∧ _
    rw [Function.update_of_ne hut]
    exact h.blocked u tok hstate

/-- A thread that goes on in its state. -/
theorem Inv.go (h : Inv s) {p : Pc}
    (hblocked : ∀ tok, s.state t = .blocked tok →
      ∃ id deadline, p.waits = some (id, deadline, true) ∧ tok = token id ∧ s.Pending id) :
    Inv (s.goto t p) := by
  have hthread := h.thread (t := t) hblocked
  rwa [setState, Function.update_eq_self] at hthread

/-- A thread that is not marked is not blocked. -/
theorem Inv.not_blocked (h : Inv s) (hw : ∀ id deadline, (s.pc t).waits ≠ some (id, deadline, true))
    (tok : ℕ) : s.state t ≠ .blocked tok := fun hs => by
  obtain ⟨id, deadline, hwaits, -⟩ := h.blocked t tok hs
  exact hw id deadline hwaits

/-- A wake-up of the threads that wait for a token. -/
theorem Inv.rouse (h : Inv s) (token : ℕ) :
    Inv { s with state := fun t => (s.state t).wake token } :=
  ⟨h.ledger, fun t tok ht => h.blocked t tok (State.wake_eq_blocked ht)⟩

/-- The worker wakes the waiters of a job that has ended. -/
theorem Inv.wake (h : Inv s) (hwaking : s.waking = some id) :
    Inv { s with waking := none, state := fun t => (s.state t).wake (token id) } := by
  refine ⟨h.ledger, fun t tok ht => ?_⟩
  obtain ⟨i, deadline, hwaits, rfl, j, hj, hji, hfinal⟩ := h.blocked t tok (State.wake_eq_blocked ht)
  refine ⟨i, deadline, hwaits, rfl, j, hj, hji, fun hf => ?_⟩
  obtain rfl : id = i := Option.some.inj (hwaking.symm.trans (hfinal hf))
  exact absurd ht (State.wake_ne_blocked _ _)

/-- `finished_or_prepare`. -/
theorem Inv.check (h : Inv s) {deadline : ℕ} (hpc : s.pc t = .check id deadline) :
    Inv (s.check t id deadline) := by
  have hnot := h.not_blocked (t := t) (by rw [hpc]; exact nofun)
  have hstill : ∀ (p : Pc) tok, s.state t = .blocked tok →
      ∃ id deadline, p.waits = some (id, deadline, true) ∧ tok = token id ∧ s.Pending id :=
    fun p tok hs => absurd hs (hnot tok)
  unfold Sys.check finishedOrPrepare
  cases hlook : Dir.lookup Job.id s.ledger.dev.jobs id with
  | none => exact h.thread (hstill _)
  | some j =>
    have hprepared : ¬j.Final → Inv ((s.setState t (.blocked (token id))).goto t
        (.unfinished id deadline true)) := fun hf => by
      refine h.thread fun tok htok => ⟨id, deadline, rfl, (State.blocked.inj htok).symm, j, ?_⟩
      exact ⟨Dir.mem_of_lookup hlook, Dir.key_of_lookup hlook, fun hfinal => absurd hfinal hf⟩
    dsimp only
    cases hs : j.state with
    | done => exact h.thread (hstill _)
    | refused => exact h.thread (hstill _)
    | overBudget => exact h.thread (hstill _)
    | queued => exact hprepared (by rintro (hf | hf | hf) <;> cases hs.symm.trans hf)
    | running => exact hprepared (by rintro (hf | hf | hf) <;> cases hs.symm.trans hf)

/-! ## The worker and the submitters -/

/-- A step of the ledger after which the jobs that threads wait for are still pending. -/
theorem Inv.moved (h : Inv s) {ledger : Ledger} {waking : Option ℕ}
    (hs : s.ledger.step b = some ledger)
    (hpending : ∀ id, s.Pending id →
      ∃ j ∈ ledger.dev.jobs, j.id = id ∧ (j.Final → waking = some id)) :
    Inv { s with ledger := ledger, waking := waking } := by
  refine ⟨h.ledger.step (by cases b <;> first | exact Nat.zero_le _ | trivial) hs, ?_⟩
  intro t tok ht
  obtain ⟨id, deadline, hwaits, htok, hp⟩ := h.blocked t tok ht
  exact ⟨id, deadline, hwaits, htok, hpending id hp⟩

/-- A segment ends its job, or leaves its state. -/
theorem state_segmentDone (j : Job) (elapsed now : ℕ) :
    (j.segmentDone elapsed now).state = .done ∨ (j.segmentDone elapsed now).state = .overBudget ∨
      (j.segmentDone elapsed now).state = j.state := by
  unfold Job.segmentDone
  dsimp only
  split_ifs
  · exact .inl rfl
  · exact .inr (.inl rfl)
  · exact .inr (.inr rfl)

theorem Inv.work (h : Inv s) (hs : s.work b = some s') : Inv s' := by
  cases b with
  | submit now owner qos segments deadlineIn budget =>
    unfold Sys.work at hs
    obtain ⟨ledger, hl, rfl⟩ := Option.map_eq_some_iff.mp hs
    refine h.moved hl fun id ⟨j, hj, hid, hf⟩ => ⟨j, ?_, hid, hf⟩
    obtain ⟨state, why, -, heq⟩ :=
      Ledger.submitted_eq s.ledger.dev now owner qos segments deadlineIn budget
    cases hl
    dsimp only
    rw [heq, temperatureLocked_eq]
    exact List.mem_append_left _ hj
  | finish elapsed now =>
    unfold Sys.work at hs
    cases hwaking : s.waking with
    | some i =>
      rw [hwaking] at hs
      cases hs
    | none =>
      cases hstage : s.ledger.stage with
      | running id =>
        rw [hwaking, hstage] at hs
        obtain ⟨ledger, hl, rfl⟩ := Option.map_eq_some_iff.mp hs
        have hinv := h.ledger.step (a := .finish elapsed now) trivial hl
        refine h.moved hl fun i ⟨j, hj, hid, hf⟩ => ?_
        have hgoes : ¬j.Final := fun hfinal => absurd (hwaking.symm.trans (hf hfinal)) nofun
        have hjobs : ledger.dev.jobs = s.ledger.dev.jobs.map fun j =>
            if j.id = id then j.segmentDone elapsed now else j := by
          unfold Ledger.step at hl
          rw [hstage] at hl
          cases hl
          exact h.ledger.jobs_account id elapsed now
        by_cases hne : j.id = id
        · -- the job whose segment has ended
          have hmem : j.segmentDone elapsed now ∈ ledger.dev.jobs := by
            rw [hjobs]
            exact List.mem_map.mpr ⟨j, hj, if_pos hne⟩
          have hid' := id_segmentDone j elapsed now
          refine ⟨_, hmem, hid'.trans hid, fun hfinal => ?_⟩
          have hlook := Dir.lookup_of_mem hinv.nodup hmem
          rw [hid', hne] at hlook
          have hended : (j.segmentDone elapsed now).state = .done ∨
              (j.segmentDone elapsed now).state = .overBudget := by
            rcases state_segmentDone j elapsed now with hd | ho | hsame
            · exact .inl hd
            · exact .inr ho
            · unfold Job.Final at hfinal
              rw [hsame] at hfinal
              exact absurd hfinal hgoes
          unfold finished
          rw [hlook]
          dsimp only
          rw [if_pos hended, ← hne, hid]
        · refine ⟨j, ?_, hid, fun hfinal => absurd hfinal hgoes⟩
          rw [hjobs]
          exact List.mem_map.mpr ⟨j, hj, if_neg hne⟩
      | _ =>
        rw [hwaking, hstage] at hs
        cases hs
  | wake =>
    unfold Sys.work at hs
    cases hwaking : s.waking with
    | some i =>
      rw [hwaking] at hs
      cases hs
    | none =>
      rw [hwaking] at hs
      obtain ⟨ledger, hl, rfl⟩ := Option.map_eq_some_iff.mp hs
      refine h.moved hl fun id ⟨j, hj, hid, hf⟩ =>
        ⟨j, ?_, hid, fun hfinal => hwaking.symm.trans (hf hfinal)⟩
      unfold Ledger.step at hl
      cases hstage : s.ledger.stage with
      | asleep =>
        rw [hstage] at hl
        cases hl
        exact hj
      | _ =>
        rw [hstage] at hl
        cases hl
  | choose =>
    unfold Sys.work at hs
    cases hwaking : s.waking with
    | some i =>
      rw [hwaking] at hs
      cases hs
    | none =>
      rw [hwaking] at hs
      obtain ⟨ledger, hl, rfl⟩ := Option.map_eq_some_iff.mp hs
      refine h.moved hl fun id ⟨j, hj, hid, hf⟩ => ?_
      have hkept : ∃ j' ∈ ledger.dev.jobs, j.Same j' := by
        unfold Ledger.step at hl
        cases hstage : s.ledger.stage with
        | choosing =>
          rw [hstage] at hl
          cases hl
          cases hc : choose s.ledger.dev with
          | mk chosen dev =>
            cases chosen with
            | none =>
              obtain ⟨rfl, -⟩ := choose_none h.ledger.ids hc
              exact ⟨j, hj, .refl j⟩
            | some i =>
              obtain ⟨m, -, -, -, -, -, g, hjobs, hsame⟩ := choose_some h.ledger.ids hc
              exact ⟨g j, hjobs ▸ List.mem_map_of_mem hj, hsame j hj⟩
        | _ =>
          rw [hstage] at hl
          cases hl
      obtain ⟨j', hj', hsame⟩ := hkept
      refine ⟨j', hj', hsame.id_eq.trans hid, fun hfinal => hwaking.symm.trans (hf ?_)⟩
      rcases hsame.state with hstate | ⟨-, hrunning⟩
      · unfold Job.Final at hfinal
        rwa [hstate] at hfinal
      · exact absurd (.inr hrunning) (Ledger.not_live_of_final hfinal)

/-- Every step. -/
theorem Inv.move (h : Inv s) (hs : s.move a = some s') : Inv s' := by
  cases a with
  | work b => exact h.work hs
  | wake =>
    unfold Sys.move at hs
    dsimp only at hs
    cases hwaking : s.waking with
    | some id =>
      rw [hwaking] at hs
      cases hs
      exact h.wake hwaking
    | none =>
      rw [hwaking] at hs
      cases hs
  | rouse token =>
    cases hs
    exact h.rouse token
  | pass n =>
    cases hs
    exact ⟨h.ledger, h.blocked⟩
  | tick =>
    cases hs
    exact ⟨h.ledger, fun t tok ht => h.blocked t tok (State.wakeSleeper_eq_blocked ht)⟩
  | sleep t deadline =>
    unfold Sys.move at hs
    dsimp only at hs
    split_ifs at hs with hfree
    cases hs
    have hthread : Inv ((s.setState t (.sleeping deadline)).goto t (s.pc t)) := h.thread nofun
    have hsame : Function.update (s.setState t (.sleeping deadline)).pc t (s.pc t) = s.pc :=
      Function.update_eq_self t s.pc
    rwa [goto, hsame] at hthread
  | wait t id timeout =>
    unfold Sys.move at hs
    dsimp only at hs
    split_ifs at hs with hfree
    cases hs
    refine h.go fun tok htok => absurd htok (h.not_blocked ?_ tok)
    rw [Pc.waits_of_free hfree]
    exact nofun
  | check t =>
    unfold Sys.move at hs
    dsimp only at hs
    cases hpc : s.pc t with
    | check id deadline =>
      rw [hpc] at hs
      cases hs
      exact h.check hpc
    | _ =>
      rw [hpc] at hs
      cases hs
  | look t =>
    unfold Sys.move at hs
    dsimp only at hs
    cases hpc : s.pc t with
    | unfinished id deadline marked =>
      rw [hpc] at hs
      cases hs
      refine h.go fun tok htok => ?_
      obtain ⟨i, d, hwaits, hrest⟩ := h.blocked t tok htok
      refine ⟨i, d, Eq.trans ?_ hwaits, hrest⟩
      rw [hpc]
      split_ifs <;> rfl
    | _ =>
      rw [hpc] at hs
      cases hs
  | cancel t =>
    unfold Sys.move at hs
    dsimp only at hs
    cases hpc : s.pc t with
    | late id deadline marked =>
      rw [hpc] at hs
      cases hs
      refine h.thread fun tok htok => ?_
      cases hstate : s.state t <;> rw [hstate] at htok <;> cases htok
    | _ =>
      rw [hpc] at hs
      cases hs
  | unblock t =>
    unfold Sys.move at hs
    dsimp only at hs
    cases hpc : s.pc t with
    | block id deadline marked =>
      rw [hpc] at hs
      dsimp only at hs
      split_ifs at hs with hstate
      · cases hs
        exact h
      · cases hs
        refine h.go fun tok htok => ?_
        obtain ⟨i, d, hwaits, rfl, -⟩ := h.blocked t tok htok
        rw [hpc] at hwaits
        cases hwaits
        exact absurd htok hstate
    | _ =>
      rw [hpc] at hs
      cases hs

theorem Inv.step (h : Inv s) (hs : s.step a = some s') : Inv s' := by
  obtain ⟨s', hmove, rfl⟩ := Option.map_eq_some_iff.mp hs
  exact ⟨(h.move hmove).ledger, (h.move hmove).blocked⟩

theorem Init.inv (h : s.Init) : Inv s :=
  ⟨h.ledger.inv, fun t tok ht => absurd ht (h.state t tok)⟩

/-- A tick that meets the condition leaves no thread blocked past its deadline. -/
theorem Inv.inTime_step (h : Inv s) (hok : s.Timely a) (hs : s.step a = some s') : s'.InTime := by
  obtain ⟨s', hmove, rfl⟩ := Option.map_eq_some_iff.mp hs
  intro now hnow t id deadline marked hwaits hlate hblocked
  cases a with
  | tick =>
    cases hmove
    obtain rfl : s.ticks = now := Option.some.inj hnow
    have hbefore : s.state t = .blocked (token id) := State.wakeSleeper_eq_blocked hblocked
    obtain ⟨i, d, hwaits', -, j, hj, hji, hf⟩ := h.blocked t _ hbefore
    obtain ⟨rfl, hrest⟩ := Prod.mk.inj (Option.some.inj (hwaits.symm.trans hwaits'))
    obtain ⟨rfl, -⟩ := Prod.mk.inj hrest
    obtain ⟨hwoken, k, hk, hki, hfinal⟩ := hok t id deadline hwaits' hlate
    obtain rfl := h.ledger.eq_of_id hj hk (hji.trans hki.symm)
    exact hwoken (hf hfinal)
  | _ => cases hnow

theorem inv_of_reachable (h : Run.Reachable Sys.step Timely Init s) : Inv s :=
  h.invariant Inv (fun _ h => h.inv) fun _ _ _ h _ hs => h.step hs

/-- In a run in which, at every tick, the job of each thread that is marked past its deadline has
ended and its waiters have been woken, no tick leaves a thread blocked past its deadline. -/
theorem woken_in_time (h : Run.Reachable Sys.step Timely Init s) : s.InTime := by
  cases h with
  | start h =>
    intro now hnow
    rw [h.swept] at hnow
    cases hnow
  | next hreach hok hs => exact (inv_of_reachable hreach).inTime_step hok hs

end

/-- A machine at boot. -/
def booted : Sys :=
  { ledger := Ledger.booted, waking := none, ticks := 0, state := fun _ => .runnable
    pc := fun _ => .user, swept := none }

theorem init_booted : booted.Init :=
  ⟨Ledger.init_booted, rfl, fun _ _ => nofun, fun _ => rfl, rfl⟩

/-- Thread 0 waits for one tick at most for a job that ends in time. -/
def demoServed : List Act :=
  [.work (.submit 7 1 .foreground 1 none none), .wait 0 1 1, .check 0, .look 0, .work .choose,
    .work (.finish 900 8), .wake, .pass 2, .tick]

theorem woken_in_time_demoServed :
    ∃ s, Run.exec Sys.step booted demoServed = some s ∧ s.swept = some 2 ∧ s.InTime := by
  have hstart : Run.Reachable Sys.step Timely Init booted := .start init_booted
  have hmeets : Run.Meets Sys.step Timely booted demoServed := by
    refine .cons rfl trivial <| .cons rfl trivial <| .cons rfl trivial <| .cons rfl trivial <|
      .cons rfl trivial <| .cons rfl trivial <| .cons rfl trivial <| .cons rfl trivial <|
      .cons rfl (fun t id deadline hwaits _ => ⟨nofun, ?_⟩) trivial
    rcases t with _ | t
    · cases hwaits
      exact ⟨_, List.mem_cons_self, rfl, .inl rfl⟩
    · cases hwaits
  exact ⟨_, rfl, rfl, woken_in_time (hstart.exec hmeets rfl)⟩

/-- Thread 0 waits for one tick at most for a job that has not started. -/
def demoQueued : List Act :=
  [.work (.submit 7 1 .foreground 1 none none), .wait 0 1 1, .check 0, .look 0, .pass 2, .tick]

/-- A tick after the deadline leaves the thread blocked. -/
theorem outlives_timeout : ∃ s, Run.exec Sys.step booted demoQueued = some s ∧ ¬s.InTime := by
  refine ⟨_, rfl, fun h => ?_⟩
  exact h 2 rfl 0 1 1 true rfl (by decide) rfl

end Sys

end Wait

end JungeyOs.Tensor
