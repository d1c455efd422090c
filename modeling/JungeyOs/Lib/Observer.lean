import JungeyOs.Lib.Run

/-!
# What an observer makes of a run

An observer stands beside a system. Of a step it sees an event, or nothing, and it notes what it sees.
What it knows after a run depends on the events alone.

Results:
* `Observer.exec_beside`: beside an observer a system runs as it does alone, and the observer knows
  what it has noted of the events.
* `Observer.invariant`: what every step keeps that meets the condition holds at the end of a run.
* `Observer.same_of_seen`: where the observer knows what a system puts out, two runs of which it has
  seen the same put out the same.
-/

namespace JungeyOs.Run

variable {σ α τ ε ω : Type*}

/-- `see s i a` is what an observer that knows `i` sees of the step `a` from `s`. -/
structure Observer (σ α τ ε : Type*) where
  see : σ → τ → α → Option ε
  note : τ → ε → τ

namespace Observer

variable (o : Observer σ α τ ε) (step : σ → α → Option σ)

/-- What the observer knows after it has seen an event, or nothing. -/
def told (i : τ) : Option ε → τ
  | none => i
  | some e => o.note i e

/-- The system with the observer. -/
def beside (x : σ × τ) (a : α) : Option (σ × τ) :=
  (step x.1 a).map fun s' => (s', o.told x.2 (o.see x.1 x.2 a))

/-- The events of a run. -/
def seen : σ × τ → List α → List ε
  | _, [] => []
  | x, a :: as =>
    match o.beside step x a with
    | none => []
    | some y => (o.see x.1 x.2 a).toList ++ seen y as

variable {o step} {ok : σ × τ → α → Prop} {x : σ × τ} {as as' : List α} {t t' : σ}

theorem foldl_toList (i : τ) (e : Option ε) : e.toList.foldl o.note i = o.told i e := by
  cases e with
  | none => rfl
  | some e => rfl

/-- A system runs beside an observer as it does alone. -/
theorem exec_beside (as : List α) : ∀ x : σ × τ, exec (o.beside step) x as =
    (exec step x.1 as).map fun s' => (s', (o.seen step x as).foldl o.note x.2) := by
  induction as with
  | nil => intro x; rfl
  | cons a as ih =>
    intro x
    rw [exec, exec, seen]
    cases hs : step x.1 a with
    | none =>
      have hnone : o.beside step x a = none := by rw [beside, hs, Option.map_none]
      rw [hnone]
      rfl
    | some s' =>
      have hsome : o.beside step x a = some (s', o.told x.2 (o.see x.1 x.2 a)) := by
        rw [beside, hs, Option.map_some]
      rw [hsome, Option.bind_some, Option.bind_some, ih, List.foldl_append, foldl_toList]

/-- What every step keeps that meets the condition holds at the end of a run. -/
theorem invariant {R : σ × τ → Prop}
    (hstep : ∀ x a s', R x → ok x a → step x.1 a = some s' →
      R (s', o.told x.2 (o.see x.1 x.2 a)))
    (hx : R x) (hmeets : Meets (o.beside step) ok x as) (hrun : exec step x.1 as = some t) :
    R (t, (o.seen step x as).foldl o.note x.2) := by
  have hboth : exec (o.beside step) x as = some (t, (o.seen step x as).foldl o.note x.2) := by
    rw [exec_beside, hrun, Option.map_some]
  have hstart : Reachable (o.beside step) ok R x := .start hx
  refine (hstart.exec hmeets hboth).invariant R (fun _ h => h) ?_
  intro y a z hy hok hyz
  obtain ⟨s', hs, rfl⟩ := Option.map_eq_some_iff.mp hyz
  exact hstep y a s' hy hok hs

/-- A condition on the system alone. -/
theorem meets_beside {ok : σ → α → Prop} (as : List α) : ∀ {x : σ × τ}, Meets step ok x.1 as →
    Meets (o.beside step) (fun y => ok y.1) x as := by
  induction as with
  | nil => exact fun _ => trivial
  | cons a as ih =>
    intro x h
    refine ⟨h.1, fun y hy => ?_⟩
    obtain ⟨s', hs, rfl⟩ := Option.map_eq_some_iff.mp hy
    exact ih (h.2 s' hs)

/-- Two runs of which an observer has seen the same put out the same, where it knows of both what is
put out. -/
theorem same_of_seen {ok' : σ × τ → α → Prop} (R R' : σ × τ → Prop) (out : σ → ω) (known : τ → ω)
    (hstep : ∀ x a s', R x → ok x a → step x.1 a = some s' →
      R (s', o.told x.2 (o.see x.1 x.2 a)))
    (hstep' : ∀ x a s', R' x → ok' x a → step x.1 a = some s' →
      R' (s', o.told x.2 (o.see x.1 x.2 a)))
    (hout : ∀ y, R y → out y.1 = known y.2) (hout' : ∀ y, R' y → out y.1 = known y.2)
    (hx : R x) (hx' : R' x)
    (hmeets : Meets (o.beside step) ok x as) (hrun : exec step x.1 as = some t)
    (hmeets' : Meets (o.beside step) ok' x as') (hrun' : exec step x.1 as' = some t')
    (hseen : o.seen step x as = o.seen step x as') : out t = out t' := by
  have ht := hout _ (invariant hstep hx hmeets hrun)
  have ht' := hout' _ (invariant hstep' hx' hmeets' hrun')
  rw [hseen] at ht
  exact ht.trans ht'.symm

end Observer

end JungeyOs.Run
