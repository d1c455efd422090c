import JungeyOs.Lib.Serial
import Mathlib.Data.BitVec
import Mathlib.Data.List.Nodup

/-!
# Locks

Model of `kernel/src/sync.rs`, as a system of any number of cores and threads: `lock`, `try_lock` and
the drop of a guard in the steps that other cores and interrupts can come between, with the interrupt
mask of each core. Interrupts are taken where the mask lets them, and handlers take locks as well;
system calls and faults are taken by code that holds no guard. Threads are switched with `irq_save`
around, by code that holds no lock. Guards are dropped in the reverse order of their acquisition, as
at the end of their scopes. What the code does with the data of a lock is a parameter.

Results:
* `Inv.step`: what every step keeps of the locks, the guards and the masks.
* `exclusion`: a lock is held by one thread at most, which runs with interrupts masked.
* `serial`: critical sections can be taken to be single steps.
-/

namespace JungeyOs.Sync

abbrev Word := BitVec 64

/-! ## Masks (lines 16–39) -/

/-- `irq_save` (lines 16–22): the mask that it leaves. -/
def irqSave (daif : Word) : Word := daif ||| 0xC0

/-- The mask of a core that has taken an exception. -/
def taken (daif : Word) : Word := daif ||| 0x3C0

/-- Interrupts are masked. -/
def Masked (daif : Word) : Prop := daif.getLsbD 7 = true

theorem masked_irqSave (daif : Word) : Masked (irqSave daif) := by simp [Masked, irqSave]

theorem masked_taken (daif : Word) : Masked (taken daif) := by simp [Masked, taken]

/-! ## Contexts and threads -/

/-- A saved mask, of a `SpinGuard` (lines 97–100), or of an `irq_save` with no lock. -/
structure Guard (K : Type) where
  lock : Option K
  daif : Word

/-- `lock` or `try_lock`, behind `irq_save`. -/
structure Wait (K : Type) where
  lock : K
  daif : Word
  once : Bool

/-- Code at work, with its guards, the innermost first. `base` is the mask that the code has set itself,
outside of its guards. -/
structure Context (K P : Type) where
  code : P
  guards : List (Guard K)
  wait : Option (Wait K)
  base : Word

/-- A handler begins. -/
def Context.start {K P : Type} (code : P) (daif : Word) : Context K P := ⟨code, [], none, daif⟩

/-- The locks that are held. -/
def Context.held {K P : Type} (x : Context K P) : List K := x.guards.filterMap (·.lock)

/-- What runs, and what it has interrupted, with the masks to go on with. -/
structure Thread (K P : Type) where
  top : Context K P
  below : List (Context K P × Word)

/-- What the code may do by itself, and with the data of a lock whose guard it has. -/
structure Program (K P D : Type) where
  outside : P → P → Prop
  inside : K → P × D → P × D → Prop

/-- How a step of a thread shows to others. -/
inductive Effect (K D : Type)
  | none
  /-- the exchange succeeds -/
  | acquire (κ : K)
  /-- the exchange fails, as the lock is held -/
  | busy (κ : K)
  | access (κ : K) (d d' : D)
  | release (κ : K)

section

variable {K P D : Type}

/-- The steps of a thread, with the mask of its core. -/
inductive Does (prog : Program K P D) :
    Thread K P × Word → Effect K D → Thread K P × Word → Prop
  | compute {x : Context K P} {below : List (Context K P × Word)} {daif : Word} {p : P} :
      x.wait = .none → prog.outside x.code p →
      Does prog (⟨x, below⟩, daif) .none (⟨{ x with code := p }, below⟩, daif)
  | access {x : Context K P} {below : List (Context K P × Word)} {daif : Word} {κ : K} {p : P}
      {d d' : D} : x.wait = .none → κ ∈ x.held → prog.inside κ (x.code, d) (p, d') →
      Does prog (⟨x, below⟩, daif) (.access κ d d') (⟨{ x with code := p }, below⟩, daif)
  /-- the code sets its mask -/
  | mask {x : Context K P} {below : List (Context K P × Word)} {daif : Word} (daif' : Word) :
      x.wait = .none → x.guards = [] →
      Does prog (⟨x, below⟩, daif) .none (⟨{ x with base := daif' }, below⟩, daif')
  /-- `irq_save` -/
  | save {x : Context K P} {below : List (Context K P × Word)} {daif : Word} : x.wait = .none →
      Does prog (⟨x, below⟩, daif) .none
        (⟨{ x with guards := ⟨.none, daif⟩ :: x.guards }, below⟩, irqSave daif)
  /-- `lock` and `try_lock` (lines 60 and 74) -/
  | ask {x : Context K P} {below : List (Context K P × Word)} {daif : Word} (κ : K) (once : Bool) :
      x.wait = .none →
      Does prog (⟨x, below⟩, daif) .none (⟨{ x with wait := some ⟨κ, daif, once⟩ }, below⟩, irqSave daif)
  /-- the guard is returned -/
  | acquire {x : Context K P} {below : List (Context K P × Word)} {daif : Word} {w : Wait K} :
      x.wait = some w →
      Does prog (⟨x, below⟩, daif) (.acquire w.lock)
        (⟨{ x with guards := ⟨some w.lock, w.daif⟩ :: x.guards, wait := .none }, below⟩, daif)
  /-- `lock` goes on spinning; the exchange may fail without a reason -/
  | spin {x : Context K P} {below : List (Context K P × Word)} {daif : Word} {w : Wait K} :
      x.wait = some w → w.once = false → Does prog (⟨x, below⟩, daif) .none (⟨x, below⟩, daif)
  /-- `try_lock` gives up (lines 82–83) -/
  | fail {x : Context K P} {below : List (Context K P × Word)} {daif : Word} {w : Wait K} :
      x.wait = some w → w.once = true →
      Does prog (⟨x, below⟩, daif) (.busy w.lock) (⟨{ x with wait := .none }, below⟩, w.daif)
  /-- the store of `drop` (line 117) -/
  | release {x : Context K P} {below : List (Context K P × Word)} {daif : Word} {κ : K} {d : Word}
      {gs : List (Guard K)} : x.wait = .none → x.guards = ⟨some κ, d⟩ :: gs →
      Does prog (⟨x, below⟩, daif) (.release κ)
        (⟨{ x with guards := ⟨.none, d⟩ :: gs }, below⟩, daif)
  /-- `irq_restore`, in `drop` (line 118) or elsewhere -/
  | restore {x : Context K P} {below : List (Context K P × Word)} {daif : Word} {d : Word}
      {gs : List (Guard K)} : x.wait = .none → x.guards = ⟨.none, d⟩ :: gs →
      Does prog (⟨x, below⟩, daif) .none (⟨{ x with guards := gs }, below⟩, d)
  | interrupt {x : Context K P} {below : List (Context K P × Word)} {daif : Word} (p : P) :
      ¬Masked daif →
      Does prog (⟨x, below⟩, daif) .none
        (⟨.start p (taken daif), (x, daif) :: below⟩, taken daif)
  /-- a system call or a fault -/
  | trap {x : Context K P} {below : List (Context K P × Word)} {daif : Word} (p : P) :
      x.wait = .none → x.guards = [] →
      Does prog (⟨x, below⟩, daif) .none
        (⟨.start p (taken daif), (x, daif) :: below⟩, taken daif)
  /-- the end of a handler -/
  | eret {x y : Context K P} {below : List (Context K P × Word)} {daif d : Word} :
      x.wait = .none → x.guards = [] →
      Does prog (⟨x, (y, d) :: below⟩, daif) .none (⟨y, below⟩, d)

end

/-! ## What a step of a thread keeps -/

section

variable {K P D : Type}

/-- The masks that guards have saved: with a guard, interrupts are masked, and when all guards are
dropped, the mask is what the code has set. -/
def Nested (base : Word) : Word → List (Guard K) → Prop
  | daif, [] => daif = base
  | daif, g :: gs => Masked daif ∧ Nested base g.daif gs

/-- Code that has been interrupted has no guard, and waits for none. -/
def Below (below : List (Context K P × Word)) : Prop :=
  ∀ p ∈ below, p.1.guards = [] ∧ p.1.wait = none ∧ p.2 = p.1.base

/-- A thread that runs, with the mask of its core. -/
structure Running (x : Thread K P × Word) : Prop where
  free : x.1.top.wait = none → Nested x.1.top.base x.2 x.1.top.guards
  waits : ∀ w, x.1.top.wait = some w →
    Masked x.2 ∧ Nested x.1.top.base w.daif x.1.top.guards
  below : Below x.1.below

/-- A thread that does not run. -/
structure Resting (x : Thread K P) : Prop where
  wait : x.top.wait = none
  held : x.top.held = []
  nested : x.top.guards ≠ [] → ∀ daif, Masked daif → Nested x.top.base daif x.top.guards
  below : Below x.below

variable {prog : Program K P D} {x x' : Thread K P × Word} {e : Effect K D}

/-- With a guard, interrupts are masked. -/
theorem Nested.masked {base daif : Word} {gs : List (Guard K)} (h : Nested base daif gs)
    (hgs : gs ≠ []) : Masked daif := by
  cases gs with
  | nil => exact absurd rfl hgs
  | cons g gs => exact h.1

/-- An interrupt comes where there are no guards. -/
theorem Running.of_not_masked (h : Running x) (hm : ¬Masked x.2) :
    x.1.top.guards = [] ∧ x.1.top.wait = none ∧ x.2 = x.1.top.base := by
  have hwait : x.1.top.wait = none := by
    cases hw : x.1.top.wait with
    | none => rfl
    | some w => exact absurd (h.waits w hw).1 hm
  have hnested := h.free hwait
  have hguards : x.1.top.guards = [] := by
    by_contra hne
    exact hm (hnested.masked hne)
  rw [hguards] at hnested
  exact ⟨hguards, hwait, hnested⟩

theorem Running.start {p : P} {daif : Word} {below : List (Context K P × Word)} (h : Below below) :
    Running (⟨Context.start p daif, below⟩, daif) where
  free _ := rfl
  waits w hw := by cases hw
  below := h

theorem Below.cons {y : Context K P} {daif : Word} {below : List (Context K P × Word)}
    (hy : y.guards = [] ∧ y.wait = none ∧ daif = y.base) (h : Below below) :
    Below ((y, daif) :: below) := by
  intro p hp
  rcases List.mem_cons.mp hp with rfl | hp
  · exact hy
  · exact h p hp

theorem running_does (h : Running x) (hdoes : Does prog x e x') : Running x' := by
  cases hdoes with
  | compute hwait => exact ⟨h.free, h.waits, h.below⟩
  | access hwait => exact ⟨h.free, h.waits, h.below⟩
  | mask daif' hwait hguards =>
    refine ⟨fun _ => ?_, fun w hw => ?_, h.below⟩
    · dsimp only
      rw [hguards]
      rfl
    · cases hwait.symm.trans hw
  | save hwait =>
    refine ⟨fun _ => ⟨masked_irqSave _, h.free hwait⟩, fun w hw => ?_, h.below⟩
    cases hwait.symm.trans hw
  | ask κ once hwait =>
    refine ⟨fun hw => (by cases hw), fun w hw => ?_, h.below⟩
    cases hw
    exact ⟨masked_irqSave _, h.free hwait⟩
  | acquire hw => exact ⟨fun _ => h.waits _ hw, fun w hw => (by cases hw), h.below⟩
  | spin => exact h
  | fail hw => exact ⟨fun _ => (h.waits _ hw).2, fun w hw => (by cases hw), h.below⟩
  | release hwait hguards =>
    have hnested := h.free hwait
    dsimp only at hnested
    rw [hguards] at hnested
    exact ⟨fun _ => hnested, fun w hw => (by cases hwait.symm.trans hw), h.below⟩
  | restore hwait hguards =>
    have hnested := h.free hwait
    dsimp only at hnested
    rw [hguards] at hnested
    exact ⟨fun _ => hnested.2, fun w hw => (by cases hwait.symm.trans hw), h.below⟩
  | interrupt p hm => exact .start (.cons (h.of_not_masked hm) h.below)
  | trap p hwait hguards =>
    have hnested := h.free hwait
    dsimp only at hnested
    rw [hguards] at hnested
    exact .start (.cons ⟨hguards, hwait, hnested⟩ h.below)
  | @eret _ y below _ d _ _ =>
    obtain ⟨hguards, hwait, hbase⟩ := h.below (y, d) List.mem_cons_self
    refine ⟨fun _ => ?_, fun w hw => ?_, fun p hp => h.below p (List.mem_cons_of_mem _ hp)⟩
    · dsimp only
      rw [hguards]
      exact hbase
    · cases hwait.symm.trans hw

/-- How a step moves locks. -/
def Moves : Effect K D → List K → List K → Prop
  | .acquire κ, l, l' => l' = κ :: l
  | .release κ, l, l' => l = κ :: l'
  | .access κ _ _, l, l' => κ ∈ l ∧ l' = l
  | _, l, l' => l' = l

theorem moves_does (h : Running x) (hdoes : Does prog x e x') :
    Moves e x.1.top.held x'.1.top.held := by
  have hnil : ∀ y : Context K P, y.guards = [] → y.held = [] := fun y hy => by
    rw [Context.held, hy]
    rfl
  cases hdoes with
  | compute => rfl
  | access _ hheld => exact ⟨hheld, rfl⟩
  | mask => rfl
  | save => rfl
  | ask => rfl
  | acquire => rfl
  | spin => rfl
  | fail => rfl
  | release _ hguards =>
    simp only [Moves, Context.held, hguards]
    rfl
  | restore _ hguards =>
    simp only [Moves, Context.held, hguards]
    rfl
  | interrupt p hm => exact (hnil _ (h.of_not_masked hm).1).symm
  | trap p _ hguards => exact (hnil _ hguards).symm
  | @eret _ y _ _ d _ hguards =>
    exact (hnil y (h.below (y, d) List.mem_cons_self).1).trans (hnil _ hguards).symm

end

/-! ## The system -/

/-- Cores with the threads that they run and their masks, and the locks (lines 41–44) with their data. -/
structure Sys (K P T D : Type) where
  current : ℕ → Option T
  daif : ℕ → Word
  threads : T → Thread K P
  locked : K → Bool
  data : K → D

namespace Sys

variable {K P T D : Type}

def held (s : Sys K P T D) (t : T) : List K := (s.threads t).top.held

/-- A step shows in the state of the locks only as it may. -/
def Allows (s : Sys K P T D) : Effect K D → Prop
  | .none => True
  | .acquire κ => s.locked κ = false
  | .busy κ => s.locked κ = true
  | .access κ d _ => d = s.data κ
  | .release _ => True

variable [DecidableEq K] [DecidableEq T]

def apply (s : Sys K P T D) : Effect K D → Sys K P T D
  | .none => s
  | .acquire κ => { s with locked := Function.update s.locked κ true }
  | .busy _ => s
  | .access κ _ d' => { s with data := Function.update s.data κ d' }
  | .release κ => { s with locked := Function.update s.locked κ false }

def put (s : Sys K P T D) (c : ℕ) (t : T) (x : Thread K P × Word) : Sys K P T D :=
  { s with
    threads := Function.update s.threads t x.1
    daif := Function.update s.daif c x.2 }

end Sys

variable {K P T D : Type}

/-- A thread that runs for the first time begins with the mask of the core. -/
def Thread.resume (x : Thread K P) (daif : Word) : Thread K P :=
  if x.top.guards = [] then { x with top := { x.top with base := daif } } else x

section

variable [DecidableEq K] [DecidableEq T]

inductive Step (prog : Program K P D) (s : Sys K P T D) : Sys K P T D → Prop
  | act {c : ℕ} {t : T} {e : Effect K D} {x : Thread K P × Word} : s.current c = some t →
      Does prog (s.threads t, s.daif c) e x → s.Allows e → Step prog s ((s.apply e).put c t x)
  /-- `schedule` switches from thread `t` to thread `u` -/
  | switch {c : ℕ} {t u : T} {d : Word} {gs : List (Guard K)} : s.current c = some t →
      (s.threads t).top.wait = none → (s.threads t).top.guards = ⟨none, d⟩ :: gs → s.held t = [] →
      (∀ c', s.current c' ≠ some u) →
      Step prog s { s with
        current := Function.update s.current c (some u)
        threads := Function.update s.threads u ((s.threads u).resume (s.daif c)) }

end

/-- Nothing is held, and every thread is on one core at most. -/
structure Boot (s : Sys K P T D) : Prop where
  distinct : ∀ c c' t, s.current c = some t → s.current c' = some t → c = c'
  guards : ∀ t, (s.threads t).top.guards = []
  wait : ∀ t, (s.threads t).top.wait = none
  below : ∀ t, (s.threads t).below = []
  base : ∀ c t, s.current c = some t → s.daif c = (s.threads t).top.base
  locked : ∀ κ, s.locked κ = false

/-- Every lock that is held is held once, and no other lock is locked. -/
structure Exclusive (held : T → List K) (locked : K → Bool) : Prop where
  nodup : ∀ t, (held t).Nodup
  isLocked : ∀ t, ∀ κ ∈ held t, locked κ = true
  alone : ∀ t u, ∀ κ ∈ held t, κ ∈ held u → t = u
  owned : ∀ κ, locked κ = true → ∃ t, κ ∈ held t

structure Inv (s : Sys K P T D) : Prop where
  distinct : ∀ c c' t, s.current c = some t → s.current c' = some t → c = c'
  running : ∀ c t, s.current c = some t → Running (s.threads t, s.daif c)
  resting : ∀ t, (∀ c, s.current c ≠ some t) → Resting (s.threads t)
  locks : Exclusive s.held s.locked

section

variable {prog : Program K P D} {s s' : Sys K P T D}

theorem Boot.inv (h : Boot s) : Inv s := by
  have hheld : ∀ t, s.held t = [] := fun t => by
    rw [Sys.held, Context.held, h.guards]
    rfl
  have hbelow : ∀ t, Below (s.threads t).below := fun t p hp => by
    rw [h.below] at hp
    cases hp
  refine ⟨h.distinct, fun c t hc => ⟨fun _ => ?_, fun w hw => ?_, hbelow t⟩,
    fun t _ => ⟨h.wait t, hheld t, fun hne => absurd (h.guards t) hne, hbelow t⟩,
    fun t => ?_, fun t κ hκ => ?_, fun t u κ hκ => ?_, fun κ hκ => ?_⟩
  · dsimp only
    rw [h.guards]
    exact h.base c t hc
  · cases (h.wait t).symm.trans hw
  · rw [hheld]
    exact .nil
  · rw [hheld] at hκ
    cases hκ
  · rw [hheld] at hκ
    cases hκ
  · cases (h.locked κ).symm.trans hκ

theorem held_resume (x : Thread K P) (daif : Word) : (x.resume daif).top.held = x.top.held := by
  unfold Thread.resume
  split_ifs <;> rfl

/-- A thread goes on, or begins. -/
theorem Resting.resume {x : Thread K P} {daif : Word} (h : Resting x) (hm : Masked daif) :
    Running (x.resume daif, daif) := by
  unfold Thread.resume
  split_ifs with hguards
  · refine ⟨fun _ => ?_, fun w hw => ?_, h.below⟩
    · dsimp only
      rw [hguards]
      rfl
    · cases h.wait.symm.trans hw
  · exact ⟨fun _ => h.nested hguards daif hm, fun w hw => (by cases h.wait.symm.trans hw), h.below⟩

/-- A thread that holds a lock is on a core. -/
theorem Inv.on_core (h : Inv s) {t : T} {κ : K} (hκ : κ ∈ s.held t) :
    ∃ c, s.current c = some t := by
  by_contra hoff
  rw [Sys.held, (h.resting t fun c hc => hoff ⟨c, hc⟩).held] at hκ
  cases hκ

variable [DecidableEq K]

theorem current_apply (e : Effect K D) : (s.apply e).current = s.current := by
  cases e <;> rfl

theorem threads_apply (e : Effect K D) : (s.apply e).threads = s.threads := by
  cases e <;> rfl

theorem daif_apply (e : Effect K D) : (s.apply e).daif = s.daif := by
  cases e <;> rfl

/-- The step is one on the lock, or on its data. -/
def Effect.On (e : Effect K D) (κ : K) : Prop :=
  match e with
  | .acquire ι => ι = κ
  | .access ι _ _ => ι = κ
  | .release ι => ι = κ
  | _ => False

/-- A step that is not on the lock leaves its data and its holder alone. -/
theorem of_not_on {κ : K} {e : Effect K D} (he : ¬e.On κ) :
    (s.apply e).data κ = s.data κ ∧ ∀ {l l' : List K}, Moves e l l' → (κ ∈ l' ↔ κ ∈ l) := by
  cases e with
  | none => exact ⟨rfl, fun h => by rw [show _ = _ from h]⟩
  | busy ι => exact ⟨rfl, fun h => by rw [show _ = _ from h]⟩
  | acquire ι =>
    have hne : κ ≠ ι := fun h => he h.symm
    exact ⟨rfl, fun h => by rw [show _ = ι :: _ from h]; simp [hne]⟩
  | release ι =>
    have hne : κ ≠ ι := fun h => he h.symm
    exact ⟨rfl, fun h => by rw [show _ = ι :: _ from h]; simp [hne]⟩
  | access ι d d' =>
    have hne : κ ≠ ι := fun h => he h.symm
    exact ⟨Function.update_of_ne hne .., fun h => by rw [h.2]⟩

variable [DecidableEq T]

/-- A lock that was free has been taken by thread `t`. -/
theorem Exclusive.acquire {held : T → List K} {locked : K → Bool} (h : Exclusive held locked) {t : T}
    {κ : K} (hfree : locked κ = false) :
    Exclusive (Function.update held t (κ :: held t)) (Function.update locked κ true) := by
  have hnot : ∀ u, κ ∉ held u := fun u hu => by
    cases (h.isLocked u κ hu).symm.trans hfree
  have hmem : ∀ u ι, ι ∈ Function.update held t (κ :: held t) u ↔
      ι ∈ held u ∨ u = t ∧ ι = κ := by
    intro u ι
    by_cases hu : u = t
    · subst hu
      simp [or_comm]
    · simp [hu]
  refine ⟨fun u => ?_, fun u ι hι => ?_, fun u v ι hι hι' => ?_, fun ι hι => ?_⟩
  · by_cases hu : u = t
    · subst hu
      simpa using ⟨hnot u, h.nodup u⟩
    · simpa [hu] using h.nodup u
  · rcases (hmem u ι).mp hι with hu | ⟨-, rfl⟩
    · have hne : ι ≠ κ := fun heq => hnot u (heq ▸ hu)
      simpa [hne] using h.isLocked u ι hu
    · simp
  · rcases (hmem u ι).mp hι with hu | ⟨rfl, rfl⟩
    · rcases (hmem v ι).mp hι' with hv | ⟨rfl, rfl⟩
      · exact h.alone u v ι hu hv
      · exact absurd hu (hnot u)
    · rcases (hmem v ι).mp hι' with hv | ⟨rfl, -⟩
      · exact absurd hv (hnot v)
      · rfl
  · by_cases hne : ι = κ
    · exact ⟨t, (hmem t ι).mpr (.inr ⟨rfl, hne⟩)⟩
    · obtain ⟨u, hu⟩ := h.owned ι (by simpa [hne] using hι)
      exact ⟨u, (hmem u ι).mpr (.inl hu)⟩

/-- Thread `t` has released a lock. -/
theorem Exclusive.release {held : T → List K} {locked : K → Bool} (h : Exclusive held locked) {t : T}
    {κ : K} {l : List K} (hl : held t = κ :: l) :
    Exclusive (Function.update held t l) (Function.update locked κ false) := by
  have hnodup := h.nodup t
  rw [hl] at hnodup
  obtain ⟨hκ, hnodup⟩ := List.nodup_cons.mp hnodup
  have hmem : ∀ u ι, ι ∈ Function.update held t l u ↔ ι ∈ held u ∧ ι ≠ κ := by
    intro u ι
    by_cases hu : u = t
    · subst hu
      rw [Function.update_self, hl, List.mem_cons]
      constructor
      · intro hι
        exact ⟨.inr hι, fun heq => hκ (heq ▸ hι)⟩
      · rintro ⟨hι | hι, hne⟩
        · exact absurd hι hne
        · exact hι
    · rw [Function.update_of_ne hu]
      refine ⟨fun hι => ⟨hι, fun heq => hu ?_⟩, And.left⟩
      subst heq
      exact h.alone u t ι hι (hl ▸ List.mem_cons_self)
  refine ⟨fun u => ?_, fun u ι hι => ?_, fun u v ι hι hι' => ?_, fun ι hι => ?_⟩
  · by_cases hu : u = t
    · subst hu
      simpa using hnodup
    · simpa [hu] using h.nodup u
  · obtain ⟨hu, hne⟩ := (hmem u ι).mp hι
    simpa [hne] using h.isLocked u ι hu
  · exact h.alone u v ι ((hmem u ι).mp hι).1 ((hmem v ι).mp hι').1
  · by_cases hne : ι = κ
    · simp [hne] at hι
    · obtain ⟨u, hu⟩ := h.owned ι (by simpa [hne] using hι)
      exact ⟨u, (hmem u ι).mpr ⟨hu, hne⟩⟩

/-- Which locks are held after a step of thread `t`. -/
theorem held_put {c : ℕ} {t : T} {e : Effect K D} {x : Thread K P × Word} :
    ((s.apply e).put c t x).held = Function.update s.held t x.1.top.held := by
  funext u
  rw [Sys.held, Sys.put]
  by_cases hu : u = t
  · simp [hu]
  · simp [hu, threads_apply, Sys.held]

theorem Exclusive.moves (h : Exclusive s.held s.locked) {t : T} {e : Effect K D} {l : List K}
    (hmoves : Moves e (s.held t) l) (hallows : s.Allows e) :
    Exclusive (Function.update s.held t l) (s.apply e).locked := by
  cases e with
  | none =>
    rw [show l = s.held t from hmoves, Function.update_eq_self]
    exact h
  | busy κ =>
    rw [show l = s.held t from hmoves, Function.update_eq_self]
    exact h
  | access κ d d' =>
    rw [hmoves.2, Function.update_eq_self]
    exact h
  | acquire κ =>
    rw [show l = κ :: s.held t from hmoves]
    exact h.acquire hallows
  | release κ => exact h.release hmoves

/-- What every step keeps. -/
theorem Inv.step (h : Inv s) (hstep : Step prog s s') : Inv s' := by
  cases hstep with
  | @act c t e x hc hdoes hallows =>
    have hrun := h.running c t hc
    have hcurrent : ((s.apply e).put c t x).current = s.current := current_apply e
    refine ⟨by rw [hcurrent]; exact h.distinct, fun c' u hc' => ?_, fun u hoff => ?_, ?_⟩
    · rw [hcurrent] at hc'
      by_cases hu : u = t
      · subst hu
        obtain rfl := h.distinct c' c u hc' hc
        simpa [Sys.put] using running_does hrun hdoes
      · have hne : c' ≠ c := fun hcc => hu (Option.some.inj (hc'.symm.trans (hcc ▸ hc)))
        simpa [Sys.put, hu, hne, threads_apply, daif_apply] using h.running c' u hc'
    · rw [hcurrent] at hoff
      have hu : u ≠ t := fun hu => hoff c (hu ▸ hc)
      simpa [Sys.put, hu, threads_apply] using h.resting u hoff
    · rw [held_put]
      exact h.locks.moves (moves_does hrun hdoes) hallows
  | @switch c t u d gs hc hwait hguards hnone hoff =>
    have hut : u ≠ t := fun hu => hoff c (hu ▸ hc)
    have hrun := h.running c t hc
    have hnested : Nested (s.threads t).top.base (s.daif c) (⟨none, d⟩ :: gs) := hguards ▸ hrun.free hwait
    have helse : ∀ {c' v}, v ≠ u → Function.update s.current c (some u) c' = some v →
        c' ≠ c ∧ s.current c' = some v := by
      intro c' v hv hc'
      by_cases hcc : c' = c
      · subst hcc
        rw [Function.update_self] at hc'
        exact absurd (Option.some.inj hc').symm hv
      · exact ⟨hcc, by simpa [hcc] using hc'⟩
    refine ⟨fun c₁ c₂ v h₁ h₂ => ?_, fun c' v hc' => ?_, fun v hv => ?_, ?_⟩
    · by_cases hv : v = u
      · subst hv
        have honly : ∀ c', Function.update s.current c (some v) c' = some v → c' = c := by
          intro c' hc'
          by_contra hne
          exact hoff c' (by simpa [hne] using hc')
        rw [honly c₁ h₁, honly c₂ h₂]
      · exact h.distinct c₁ c₂ v (helse hv h₁).2 (helse hv h₂).2
    · by_cases hv : v = u
      · subst hv
        have hcc : c' = c := by
          by_contra hne
          exact hoff c' (by simpa [hne] using hc')
        subst hcc
        simpa using (h.resting v hoff).resume hnested.1
      · simpa [hv] using h.running c' v (helse hv hc').2
    · have hvu : v ≠ u := fun hvu => hv c (by simp [hvu])
      simp only [Function.update_of_ne hvu]
      by_cases hvt : v = t
      · subst hvt
        exact ⟨hwait, hnone, fun _ daif hdaif => by rw [hguards]; exact ⟨hdaif, hnested.2⟩, hrun.below⟩
      · refine h.resting v fun c' hc' => ?_
        by_cases hcc : c' = c
        · subst hcc
          exact hvt (Option.some.inj (hc'.symm.trans hc))
        · exact hv c' (by simpa [hcc] using hc')
    · have hheld : Sys.held { s with
          current := Function.update s.current c (some u)
          threads := Function.update s.threads u ((s.threads u).resume (s.daif c)) } = s.held := by
        funext v
        by_cases hv : v = u
        · subst hv
          simp [Sys.held, held_resume]
        · simp [Sys.held, hv]
      rw [hheld]
      exact h.locks

theorem inv_run {s₀ : Sys K P T D} (h₀ : Boot s₀)
    (hrun : Relation.ReflTransGen (Step prog) s₀ s) : Inv s := by
  induction hrun with
  | refl => exact h₀.inv
  | tail _ hstep ih => exact ih.step hstep

/-- In every state that is reached, a lock is locked exactly if it is held; it is held once, by a thread
that runs with interrupts masked and has interrupted nothing that holds a lock. Who waits for a lock
that is held has asked for it twice, or waits for another core. Without guards, the mask is what the
code has set. -/
theorem exclusion {s₀ : Sys K P T D} (h₀ : Boot s₀)
    (hrun : Relation.ReflTransGen (Step prog) s₀ s) :
    (∀ κ, s.locked κ = true ↔ ∃ t, κ ∈ s.held t) ∧
    (∀ κ t, κ ∈ s.held t → (s.held t).Nodup ∧ (∀ u, κ ∈ s.held u → u = t) ∧
      ∃ c, s.current c = some t ∧ Masked (s.daif c) ∧ ∀ p ∈ (s.threads t).below, p.1.held = []) ∧
    (∀ c t w, s.current c = some t → (s.threads t).top.wait = some w → s.locked w.lock = true →
      w.lock ∈ (s.threads t).top.held ∨
        ∃ c' u, c' ≠ c ∧ s.current c' = some u ∧ w.lock ∈ s.held u) ∧
    ∀ c t, s.current c = some t → (s.threads t).top.wait = none → (s.threads t).top.guards = [] →
      s.daif c = (s.threads t).top.base := by
  have hinv := inv_run h₀ hrun
  refine ⟨fun κ => ⟨hinv.locks.owned κ, fun ⟨t, ht⟩ => hinv.locks.isLocked t κ ht⟩, fun κ t ht => ?_,
    fun c t w hc hw hlocked => ?_, fun c t hc hwait hguards => ?_⟩
  · obtain ⟨c, hc⟩ := hinv.on_core ht
    have hrun := hinv.running c t hc
    have hguards : (s.threads t).top.guards ≠ [] := fun hnil => by
      rw [Sys.held, Context.held, hnil] at ht
      cases ht
    refine ⟨hinv.locks.nodup t, fun u hu => hinv.locks.alone u t κ hu ht, c, hc, ?_, fun p hp => ?_⟩
    · cases hw : (s.threads t).top.wait with
      | none => exact (hrun.free hw).masked hguards
      | some w => exact (hrun.waits w hw).1
    · rw [Context.held, (hrun.below p hp).1]
      rfl
  · obtain ⟨u, hu⟩ := hinv.locks.owned _ hlocked
    by_cases hut : u = t
    · exact .inl (hut ▸ hu)
    · obtain ⟨c', hc'⟩ := hinv.on_core hu
      refine .inr ⟨c', u, fun hcc => hut ?_, hc', hu⟩
      exact Option.some.inj (hc'.symm.trans (hcc ▸ hc))
  · have hnested := (hinv.running c t hc).free hwait
    dsimp only at hnested
    rw [hguards] at hnested
    exact hnested

/-! ## Critical sections -/

/-- What threads do, seen from one lock. -/
def rules (prog : Program K P D) (κ : K) : Serial.Rules (Thread K P) D where
  alone x x' := (∃ e d d', Does prog (x, d) e (x', d') ∧ ¬e.On κ) ∨ ∃ d, x' = x.resume d
  take x x' := ∃ d d', Does prog (x, d) (.acquire κ) (x', d')
  hold p p' := ∃ e d d', Does prog (p.1, d) e (p'.1, d') ∧
    (e = .access κ p.2 p'.2 ∨ ¬e.On κ ∧ p'.2 = p.2)
  give x x' := ∃ d d', Does prog (x, d) (.release κ) (x', d')

/-- The system, seen from one lock. -/
structure View (κ : K) (s : Sys K P T D) (f : Serial.Fine T (Thread K P) D) : Prop where
  activity : f.activity = s.threads
  data : f.data = s.data κ
  holder : ∀ t, f.holder = some t ↔ κ ∈ s.held t

/-- Every step is one of the system in which the lock is the resource. -/
theorem view_step (h : Inv s) (hstep : Step prog s s') {κ : K}
    {f : Serial.Fine T (Thread K P) D} (hv : View κ s f) :
    ∃ f', Serial.Fine.Step (rules prog κ) f f' ∧ View κ s' f' := by
  obtain ⟨activity, data, holder⟩ := f
  obtain ⟨rfl, rfl, hholder⟩ := hv
  dsimp only at hholder
  cases hstep with
  | @act c t e x hc hdoes hallows =>
    have hmoves : Moves e (s.held t) x.1.top.held := moves_does (h.running c t hc) hdoes
    have hthreads : ((s.apply e).put c t x).threads = Function.update s.threads t x.1 := by
      simp [Sys.put, threads_apply]
    by_cases hon : e.On κ
    · cases e with
      | none => cases hon
      | busy => cases hon
      | acquire ι =>
        obtain rfl : ι = κ := hon
        have hfree : holder = none := by
          cases hx : holder with
          | none => rfl
          | some u => cases (h.locks.isLocked u ι ((hholder u).mp hx)).symm.trans hallows
        refine ⟨_, .take hfree ⟨_, _, hdoes⟩, hthreads.symm, rfl, fun u => ?_⟩
        rw [held_put, show x.1.top.held = ι :: s.held t from hmoves]
        by_cases hu : u = t
        · simp [hu]
        · have hnot : ι ∉ s.held u := fun hin => by
            cases (h.locks.isLocked u ι hin).symm.trans hallows
          simp [hu, hnot, Ne.symm hu]
      | access ι d d' =>
        obtain rfl : ι = κ := hon
        have hsome := (hholder t).mpr hmoves.1
        refine ⟨_, .hold (d := d') hsome ⟨_, _, _, hdoes, .inl ?_⟩, hthreads.symm, ?_, fun u => ?_⟩
        · rw [show d = s.data ι from hallows]
        · simp [Sys.put, Sys.apply]
        · rw [held_put, hmoves.2, Function.update_eq_self]
          exact hholder u
      | release ι =>
        obtain rfl : ι = κ := hon
        have hheld : s.held t = ι :: x.1.top.held := hmoves
        have hsome := (hholder t).mpr (hheld ▸ List.mem_cons_self)
        refine ⟨_, .give hsome ⟨_, _, hdoes⟩, hthreads.symm, rfl, fun u => ?_⟩
        have hnodup := h.locks.nodup t
        rw [hheld] at hnodup
        rw [held_put]
        by_cases hu : u = t
        · simpa [hu] using (List.nodup_cons.mp hnodup).1
        · have hnot : ι ∉ s.held u := fun hin =>
            hu (h.locks.alone u t ι hin (hheld ▸ List.mem_cons_self))
          simp [hu, hnot]
    · obtain ⟨hdata, hmem⟩ := of_not_on (s := s) hon
      have hview : ∀ u, holder = some u ↔ κ ∈ ((s.apply e).put c t x).held u := fun u => by
        rw [hholder, held_put]
        by_cases hu : u = t
        · simpa [hu] using (hmem hmoves).symm
        · simp [hu]
      by_cases hin : holder = some t
      · exact ⟨_, .hold (d := s.data κ) hin ⟨_, _, _, hdoes, .inr ⟨hon, rfl⟩⟩, hthreads.symm, hdata.symm,
          hview⟩
      · exact ⟨_, .alone hin (.inl ⟨_, _, _, hdoes, hon⟩), hthreads.symm, hdata.symm, hview⟩
  | @switch c t u d gs hc hwait hguards hnone hoff =>
    have hin : holder ≠ some u := fun hu => by
      obtain ⟨c', hc'⟩ := h.on_core ((hholder u).mp hu)
      exact hoff c' hc'
    refine ⟨_, .alone hin (.inr ⟨s.daif c, rfl⟩), rfl, rfl, fun v => ?_⟩
    rw [hholder]
    by_cases hv : v = u
    · subst hv
      simp [Sys.held, held_resume]
    · simp [Sys.held, hv]

/-- Every run is matched by one in which the critical sections of a lock are single steps, so that its
data go from one whole section to the next; a section that is going on has begun with the data that
the last whole section has left. -/
theorem serial {s₀ : Sys K P T D} (h₀ : Boot s₀)
    (hrun : Relation.ReflTransGen (Step prog) s₀ s) (κ : K) :
    ∃ k, Relation.ReflTransGen (Serial.Coarse.Step (rules prog κ)) ⟨s₀.threads, s₀.data κ⟩ k ∧
      ((∀ t, κ ∉ s.held t) → k = ⟨s.threads, s.data κ⟩) ∧
      ∀ t, κ ∈ s.held t → (∀ u, u ≠ t → k.activity u = s.threads u) ∧
        ∃ x, (rules prog κ).take (k.activity t) x ∧
          Relation.ReflTransGen (rules prog κ).hold (x, k.data) (s.threads t, s.data κ) := by
  have hview : ∃ f, Relation.ReflTransGen (Serial.Fine.Step (rules prog κ))
      ⟨s₀.threads, s₀.data κ, none⟩ f ∧ View κ s f := by
    induction hrun with
    | refl =>
      refine ⟨_, .refl, rfl, rfl, fun t => iff_of_false (by simp) fun ht => ?_⟩
      cases (h₀.locked κ).symm.trans (h₀.inv.locks.isLocked t κ ht)
    | tail hreach hstep ih =>
      obtain ⟨f, hfine, hv⟩ := ih
      obtain ⟨f', hstep', hv'⟩ := view_step (inv_run h₀ hreach) hstep hv
      exact ⟨f', hfine.tail hstep', hv'⟩
  obtain ⟨⟨activity, data, holder⟩, hfine, rfl, rfl, hholder⟩ := hview
  obtain ⟨k, hcoarse, hstands⟩ := Serial.stands_run rfl hfine
  refine ⟨k, hcoarse, fun hnone => ?_, fun t ht => ?_⟩
  · cases holder with
    | none => exact hstands
    | some t => exact absurd ((hholder t).mp rfl) (hnone t)
  · obtain rfl : holder = some t := (hholder t).mpr ht
    exact hstands

end

/-! ## Two cores that count -/

/-- A counter behind a lock. -/
def counting : Program Unit Unit ℕ := ⟨fun _ _ => True, fun _ p p' => p'.2 = p.2 + 1⟩

/-- Core 0 runs one thread, and core 1 the other. -/
def twoCores : Sys Unit Unit Bool ℕ where
  current c := if c = 0 then some false else if c = 1 then some true else none
  daif _ := 0
  threads _ := ⟨.start () 0, []⟩
  locked _ := false
  data _ := 0

theorem boot_twoCores : Boot twoCores where
  distinct c c' t h h' := by
    simp only [twoCores] at h h'
    split_ifs at h h' <;> grind
  guards _ := rfl
  wait _ := rfl
  below _ := rfl
  base _ _ _ := rfl
  locked _ := rfl

/-- A count. -/
theorem counts {x : Context Unit Unit} {below : List (Context Unit Unit × Word)} {daif : Word} {n : ℕ}
    (hwait : x.wait = none) (hheld : () ∈ x.held) :
    Does counting (⟨x, below⟩, daif) (.access () n (n + 1)) (⟨{ x with code := () }, below⟩, daif) :=
  .access hwait hheld rfl

/-- Core 1 waits for the lock that core 0 has taken. -/
theorem exclusion_twoCores : ∃ s, Relation.ReflTransGen (Step counting) twoCores s ∧
    s.data () = 1 ∧ (∃ c' u, c' ≠ 1 ∧ s.current c' = some u ∧ () ∈ s.held u) ∧
    ∀ u, () ∈ s.held u → u = false := by
  have hask : Step counting twoCores _ := .act (c := 0) (t := false) rfl (.ask () false rfl) trivial
  have hrun := (Relation.ReflTransGen.single hask).tail
    (.act (c := 0) (t := false) rfl (.acquire (w := ⟨(), 0, false⟩) rfl) rfl)
  have hrun := hrun.tail
    (.act (c := 0) (t := false) rfl (counts (n := 0) rfl List.mem_cons_self) rfl)
  have hrun := hrun.tail (.act (c := 1) (t := true) rfl (.ask () false rfl) trivial)
  obtain ⟨-, hheld, hwait, -⟩ := exclusion boot_twoCores hrun
  have hother := (hwait 1 true ⟨(), 0, false⟩ rfl rfl rfl).resolve_left (by decide)
  exact ⟨_, hrun, rfl, hother, (hheld () false List.mem_cons_self).2.1⟩

/-- Core 0 has counted, and core 1 begins a section with what core 0 has left. -/
theorem serial_twoCores : ∃ s k, Relation.ReflTransGen (Step counting) twoCores s ∧
    Relation.ReflTransGen (Serial.Coarse.Step (rules counting ())) ⟨twoCores.threads, 0⟩ k ∧
    (∀ u, u ≠ true → k.activity u = s.threads u) ∧
    ∃ x, (rules counting ()).take (k.activity true) x ∧
      Relation.ReflTransGen (rules counting ()).hold (x, k.data) (s.threads true, 1) := by
  have hask : Step counting twoCores _ := .act (c := 0) (t := false) rfl (.ask () false rfl) trivial
  have hrun := (Relation.ReflTransGen.single hask).tail
    (.act (c := 0) (t := false) rfl (.acquire (w := ⟨(), 0, false⟩) rfl) rfl)
  have hrun := hrun.tail
    (.act (c := 0) (t := false) rfl (counts (n := 0) rfl List.mem_cons_self) rfl)
  have hrun := hrun.tail (.act (c := 1) (t := true) rfl (.ask () false rfl) trivial)
  have hrun := hrun.tail (.act (c := 0) (t := false) rfl (.release rfl rfl) trivial)
  have hrun := hrun.tail
    (.act (c := 1) (t := true) rfl (.acquire (w := ⟨(), 0, false⟩) rfl) rfl)
  obtain ⟨k, hcoarse, -, hheld⟩ := serial boot_twoCores hrun ()
  exact ⟨_, k, hrun, hcoarse, hheld true List.mem_cons_self⟩

end JungeyOs.Sync
