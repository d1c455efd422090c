import Mathlib.Logic.Basic
import Mathlib.Data.List.Basic

/-!
# Runs of a step function

A system is a partial step function `step : σ → α → Option σ`: the action `a`
is enabled in `s` when `step s a` is `some`. A run may be restricted to steps
that meet a condition `ok` on the state before the step and the action.

Results:
* `Reachable.invariant`: what holds at the start and is kept by every step that
  meets the condition holds in every reached state.
* `reachable_of_exec`: an executed list of actions whose steps all meet the
  condition ends in a reachable state.
* `throughout_iff_meets`: a property that a step keeps exactly when it meets a
  condition holds throughout a run exactly when all its steps meet the condition.
-/

namespace JungeyOs.Run

variable {σ α : Type*}

/-- `Reachable step ok init s`: some run from a state satisfying `init`, all of
whose steps meet `ok`, ends in `s`. -/
inductive Reachable (step : σ → α → Option σ) (ok : σ → α → Prop) (init : σ → Prop) : σ → Prop
  | start {s : σ} : init s → Reachable step ok init s
  | next {s s' : σ} {a : α} : Reachable step ok init s → ok s a → step s a = some s' →
      Reachable step ok init s'

/-- The condition that every step meets. -/
def always : σ → α → Prop := fun _ _ => True

section

variable {step : σ → α → Option σ} {ok : σ → α → Prop} {init : σ → Prop}

/-- What holds at the start and is kept by every step that meets the condition
holds in every reached state. -/
theorem Reachable.invariant (Inv : σ → Prop) (hinit : ∀ s, init s → Inv s)
    (hstep : ∀ s a s', Inv s → ok s a → step s a = some s' → Inv s') {s : σ}
    (h : Reachable step ok init s) : Inv s := by
  induction h with
  | start h => exact hinit _ h
  | next _ hok hs ih => exact hstep _ _ _ ih hok hs

/-- Run a list of actions; `none` if one of them is not enabled. -/
def exec (step : σ → α → Option σ) : σ → List α → Option σ
  | s, [] => some s
  | s, a :: as => (step s a).bind fun s' => exec step s' as

theorem exec_append (step : σ → α → Option σ) (as bs : List α) : ∀ s,
    exec step s (as ++ bs) = (exec step s as).bind fun s' => exec step s' bs := by
  induction as with
  | nil => intro s; rfl
  | cons a as ih =>
    intro s
    rw [List.cons_append, exec, exec, Option.bind_assoc]
    exact Option.bind_congr fun s' _ => ih s'

/-- Every step of the run of `as` from `s` meets `ok`. -/
def Meets (step : σ → α → Option σ) (ok : σ → α → Prop) : σ → List α → Prop
  | _, [] => True
  | s, a :: as => ok s a ∧ ∀ s', step s a = some s' → Meets step ok s' as

theorem Reachable.exec {s s' : σ} (h : Reachable step ok init s) {as : List α}
    (hm : Meets step ok s as) (he : exec step s as = some s') : Reachable step ok init s' := by
  induction as generalizing s with
  | nil => cases he; exact h
  | cons a as ih =>
    obtain ⟨t, ht, hrest⟩ := Option.bind_eq_some_iff.mp he
    exact ih (.next h hm.1 ht) (hm.2 t ht) hrest

/-- Actions that meet the condition in every state. -/
theorem meets_of_forall {s : σ} {as : List α} (h : ∀ a ∈ as, ∀ s, ok s a) : Meets step ok s as := by
  induction as generalizing s with
  | nil => trivial
  | cons a as ih =>
    exact ⟨h a List.mem_cons_self s, fun s' _ => ih fun b hb => h b (List.mem_cons_of_mem _ hb)⟩

instance Meets.decidable [∀ s a, Decidable (ok s a)] : ∀ (s : σ) (as : List α), Decidable (Meets step ok s as)
  | _, [] => .isTrue trivial
  | s, a :: as =>
    match h : step s a with
    | none => decidable_of_iff (ok s a)
        ⟨fun hok => ⟨hok, fun _ hs => nomatch h.symm.trans hs⟩, fun hm => hm.1⟩
    | some s' =>
      have := Meets.decidable s' as
      decidable_of_iff (ok s a ∧ Meets step ok s' as)
        ⟨fun hm => ⟨hm.1, fun _ hs => Option.some.inj (h.symm.trans hs) ▸ hm.2⟩,
          fun hm => ⟨hm.1, hm.2 s' h⟩⟩

theorem Meets.cons {s s' : σ} {a : α} {as : List α} (hs : step s a = some s') (hok : ok s a)
    (h : Meets step ok s' as) : Meets step ok s (a :: as) :=
  ⟨hok, fun _ ht => Option.some.inj (hs.symm.trans ht) ▸ h⟩

/-- Conditions that are equivalent in every state. -/
theorem meets_congr {ok' : σ → α → Prop} (h : ∀ s a, ok s a ↔ ok' s a) (s : σ) (as : List α) :
    Meets step ok s as ↔ Meets step ok' s as := by
  induction as generalizing s with
  | nil => rfl
  | cons a as ih => exact and_congr (h s a) (forall_congr' fun s' => imp_congr_right fun _ => ih s')

theorem meets_always (step : σ → α → Option σ) (s : σ) (as : List α) :
    Meets step always s as :=
  meets_of_forall fun _ _ _ => trivial

/-- A list of actions that runs ends in a reachable state. -/
theorem reachable_of_exec {s s' : σ} (hs : init s) {as : List α}
    (he : JungeyOs.Run.exec step s as = some s') : Reachable step always init s' :=
  (Reachable.start hs).exec (meets_always step s as) he

/-- `P` holds at the start and after every step of the run of `as` from `s`. -/
def Throughout (step : σ → α → Option σ) (P : σ → Prop) : σ → List α → Prop
  | s, [] => P s
  | s, a :: as => P s ∧ ∀ s', step s a = some s' → Throughout step P s' as

theorem Throughout.start {P : σ → Prop} {s : σ} {as : List α} (h : Throughout step P s as) : P s := by
  cases as with
  | nil => exact h
  | cons a as => exact h.1

/-- A property that a step keeps exactly when it meets a condition holds throughout
a run exactly when all its steps meet the condition. -/
theorem throughout_iff_meets {P : σ → Prop} (Inv : σ → Prop)
    (hinv : ∀ s a s', Inv s → ok s a → step s a = some s' → Inv s')
    (hstep : ∀ s a s', Inv s → P s → step s a = some s' → (P s' ↔ ok s a))
    (hnone : ∀ s a, Inv s → step s a = none → ok s a) {s : σ} (hi : Inv s) (hp : P s) (as : List α) :
    Throughout step P s as ↔ Meets step ok s as := by
  induction as generalizing s with
  | nil => exact iff_of_true hp trivial
  | cons a as ih =>
    cases hs : step s a with
    | none =>
      refine iff_of_true ⟨hp, fun s' h => ?_⟩ ⟨hnone s a hi hs, fun s' h => ?_⟩ <;>
      · rw [hs] at h
        cases h
    | some t =>
      have hnext : ∀ Q : σ → Prop, (∀ s', step s a = some s' → Q s') ↔ Q t := by
        simp [hs]
      rw [Throughout, Meets, hnext, hnext]
      constructor
      · rintro ⟨-, h⟩
        have ht := h.start
        have hok := (hstep s a t hi hp hs).mp ht
        exact ⟨hok, (ih (hinv s a t hi hok hs) ht).mp h⟩
      · rintro ⟨hok, h⟩
        have ht := (hstep s a t hi hp hs).mpr hok
        exact ⟨hp, (ih (hinv s a t hi hok hs) ht).mpr h⟩

end

end JungeyOs.Run
