import Mathlib.Logic.Basic

/-!
# Resources and their owners

Resources are in use or free, and a resource that has an owner is in use and has no other
owner. The rules say what keeps this when resources change hands.

Results:
* `Holdings.grant`: a resource that was free gets an owner.
* `Holdings.release`: the owner of a resource gives it up, and it is freed.
* `Holdings.transfer`: a resource goes from one owner to another.
-/

namespace JungeyOs

variable {ι ρ : Type*}

/-- Every resource that has an owner is in use, and has no other owner. -/
structure Holdings (used : ρ → Prop) (owns : ι → ρ → Prop) : Prop where
  used : ∀ o r, owns o r → used r
  apart : ∀ o o' r, owns o r → owns o' r → o = o'

namespace Holdings

variable {used used' : ρ → Prop} {owns owns' : ι → ρ → Prop} {o d : ι} {r : ρ}

/-- Nobody gets anything, and what was in use stays so. -/
theorem mono (h : Holdings used owns) (howns : ∀ o r, owns' o r → owns o r)
    (hused : ∀ r, used r → used' r) : Holdings used' owns' :=
  ⟨fun o r ho => hused r (h.used o r (howns o r ho)),
    fun o o' r ho ho' => h.apart o o' r (howns o r ho) (howns o' r ho')⟩

/-- A resource that was free gets an owner. -/
theorem grant (h : Holdings used owns) (hfree : ¬used r) (hr : used' r)
    (howns : ∀ p x, owns' p x → owns p x ∨ p = o ∧ x = r) (hused : ∀ x, used x → used' x) :
    Holdings used' owns' := by
  refine ⟨fun p x hp => ?_, fun p q x hp hq => ?_⟩
  · rcases howns p x hp with hold | ⟨-, rfl⟩
    · exact hused x (h.used p x hold)
    · exact hr
  · rcases howns p x hp with hp | ⟨rfl, rfl⟩
    · rcases howns q x hq with hq | ⟨-, rfl⟩
      · exact h.apart p q x hp hq
      · exact absurd (h.used p _ hp) hfree
    · rcases howns q _ hq with hq | ⟨rfl, -⟩
      · exact absurd (h.used q _ hq) hfree
      · rfl

/-- The owner of a resource gives it up, and it is freed. -/
theorem release (h : Holdings used owns) (ho : owns o r)
    (howns : ∀ p x, owns' p x → owns p x ∧ ¬(p = o ∧ x = r)) (hused : ∀ x, x ≠ r → used x → used' x) :
    Holdings used' owns' := by
  refine ⟨fun p x hp => ?_, fun p q x hp hq => h.apart p q x (howns p x hp).1 (howns q x hq).1⟩
  obtain ⟨hold, hne⟩ := howns p x hp
  refine hused x (fun hx => hne ⟨?_, hx⟩) (h.used p x hold)
  subst hx
  exact h.apart p o x hold ho

/-- A resource goes from owner `o` to owner `d`. -/
theorem transfer (h : Holdings used owns) (ho : owns o r)
    (howns : ∀ p x, owns' p x → owns p x ∧ ¬(p = o ∧ x = r) ∨ p = d ∧ x = r)
    (hused : ∀ x, used x → used' x) : Holdings used' owns' := by
  refine ⟨fun p x hp => ?_, fun p q x hp hq => ?_⟩
  · rcases howns p x hp with ⟨hold, -⟩ | ⟨-, rfl⟩
    · exact hused x (h.used p x hold)
    · exact hused x (h.used o x ho)
  · rcases howns p x hp with ⟨hp, hpne⟩ | ⟨rfl, rfl⟩
    · rcases howns q x hq with ⟨hq, -⟩ | ⟨-, rfl⟩
      · exact h.apart p q x hp hq
      · exact absurd ⟨h.apart p o _ hp ho, rfl⟩ hpne
    · rcases howns q _ hq with ⟨hq, hqne⟩ | ⟨rfl, -⟩
      · exact absurd ⟨h.apart q o _ hq ho, rfl⟩ hqne
      · rfl

end Holdings

end JungeyOs
