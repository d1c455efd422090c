import Mathlib.Logic.Function.Basic
import Mathlib.Logic.Relation

/-!
# Sections that run one after the other

Activities that take a resource, use it for some steps, and give it back, with at most one of them
holding it at any time, while the others take steps of their own in between. Every run of such a
system is matched by a run in which each section, from taking to giving back, is a single step.

Results:
* `stands_step`: a step of the fine system is matched by steps of the coarse one.
* `stands_run`: so is a run.
-/

namespace JungeyOs.Serial

variable {A L D : Type*}

/-- What an activity may do to its own state: while it does not hold the resource, when it takes it,
while it holds it (here the resource may change too), and when it gives it back. -/
structure Rules (L D : Type*) where
  alone : L → L → Prop
  take : L → L → Prop
  hold : L × D → L × D → Prop
  give : L → L → Prop

structure Fine (A L D : Type*) where
  activity : A → L
  data : D
  holder : Option A

structure Coarse (A L D : Type*) where
  activity : A → L
  data : D

variable [DecidableEq A]

inductive Fine.Step (R : Rules L D) (s : Fine A L D) : Fine A L D → Prop
  | alone {a : A} {l : L} : s.holder ≠ some a → R.alone (s.activity a) l →
      Step R s { s with activity := Function.update s.activity a l }
  | take {a : A} {l : L} : s.holder = none → R.take (s.activity a) l →
      Step R s { s with activity := Function.update s.activity a l, holder := some a }
  | hold {a : A} {l : L} {d : D} : s.holder = some a → R.hold (s.activity a, s.data) (l, d) →
      Step R s { s with activity := Function.update s.activity a l, data := d }
  | give {a : A} {l : L} : s.holder = some a → R.give (s.activity a) l →
      Step R s { s with activity := Function.update s.activity a l, holder := none }

inductive Coarse.Step (R : Rules L D) (k : Coarse A L D) : Coarse A L D → Prop
  | alone {a : A} {l : L} : R.alone (k.activity a) l →
      Step R k { k with activity := Function.update k.activity a l }
  /-- a section from beginning to end -/
  | whole {a : A} {l l' l'' : L} {d : D} : R.take (k.activity a) l →
      Relation.ReflTransGen R.hold (l, k.data) (l', d) → R.give l' l'' →
      Step R k ⟨Function.update k.activity a l'', d⟩

/-- The coarse state behind a fine one: the section that is going on has not begun yet. -/
def Stands (R : Rules L D) (s : Fine A L D) (k : Coarse A L D) : Prop :=
  match s.holder with
  | none => k = ⟨s.activity, s.data⟩
  | some a => (∀ b, b ≠ a → k.activity b = s.activity b) ∧
      ∃ l, R.take (k.activity a) l ∧ Relation.ReflTransGen R.hold (l, k.data) (s.activity a, s.data)

section

variable {R : Rules L D} {s s' : Fine A L D} {k : Coarse A L D}

/-- A step of the fine system is matched by steps of the coarse one. -/
theorem stands_step (h : Stands R s k) (hstep : s.Step R s') :
    ∃ k', Relation.ReflTransGen (Coarse.Step R) k k' ∧ Stands R s' k' := by
  obtain ⟨activity, data, holder⟩ := s
  cases hstep with
  | @alone a l hne halone =>
    cases holder with
    | none =>
      subst h
      exact ⟨_, .single (.alone halone), rfl⟩
    | some b =>
      have hab : a ≠ b := fun hab => hne (congrArg some hab.symm)
      obtain ⟨hothers, l₀, htake, hhold⟩ := h
      -- the activity steps in front of the section of the holder
      refine ⟨_, .single (.alone (a := a) (l := l) ?_), fun c hc => ?_, l₀, ?_, ?_⟩
      · rw [hothers a hab]
        exact halone
      · by_cases hca : c = a
        · simp [hca]
        · simpa [hca] using hothers c hc
      · simpa [hab.symm] using htake
      · simpa [hab.symm] using hhold
  | @take a l hnone htake =>
    subst hnone
    subst h
    refine ⟨_, .refl, fun b hb => by simp [hb], l, htake, ?_⟩
    simpa using Relation.ReflTransGen.refl
  | @hold a l d hsome hhold =>
    subst hsome
    obtain ⟨hothers, l₀, htake, hrun⟩ := h
    refine ⟨_, .refl, fun b hb => by simpa [hb] using hothers b hb, l₀, htake, ?_⟩
    simpa using hrun.tail hhold
  | @give a l hsome hgive =>
    subst hsome
    obtain ⟨hothers, l₀, htake, hrun⟩ := h
    refine ⟨_, .single (.whole htake hrun hgive), ?_⟩
    change Coarse.mk _ _ = Coarse.mk _ _
    congr 1
    funext b
    by_cases hb : b = a
    · simp [hb]
    · simpa [hb] using hothers b hb

/-- Every run in fine steps from a state in which nobody holds the resource is matched by a run in
which sections are single steps. -/
theorem stands_run {s₀ : Fine A L D} (hfree : s₀.holder = none)
    (h : Relation.ReflTransGen (Fine.Step R) s₀ s) :
    ∃ k, Relation.ReflTransGen (Coarse.Step R) ⟨s₀.activity, s₀.data⟩ k ∧ Stands R s k := by
  induction h with
  | refl => exact ⟨_, .refl, by rw [Stands, hfree]⟩
  | tail _ hstep ih =>
    obtain ⟨k, hrun, hstands⟩ := ih
    obtain ⟨k', hrun', hstands'⟩ := stands_step hstands hstep
    exact ⟨k', hrun.trans hrun', hstands'⟩

end

end JungeyOs.Serial
