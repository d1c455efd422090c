import Mathlib.Data.List.Basic
import Mathlib.Tactic.SplitIfs

/-!
# Growing forests

Nodes are numbered from 1; `parent n` is the parent of node `n`, `some 0` for a root
and `none` for a node that does not exist. In a forest that only grows, a node's
parent was there before it.

Results:
* `search_iff`: walking up with enough fuel decides `Under`.
* `under_congr`: what lies above a node does not change as the forest grows.
* `under_iff`: a node lies under itself and under what its parent lies under.
-/

namespace JungeyOs.Forest

/-- `Under parent a b`: node `a` is `b` or one of its ancestors. -/
inductive Under (parent : ℕ → Option ℕ) (a : ℕ) : ℕ → Prop
  | self : a ≠ 0 → Under parent a a
  | up {b c : ℕ} : b ≠ 0 → parent b = some c → Under parent a c → Under parent a b

/-- The nodes `1..n` exist, and each parent was there before its children. -/
structure Grown (parent : ℕ → Option ℕ) (n : ℕ) : Prop where
  lt : ∀ b c, parent b = some c → b ≠ 0 → c < b
  exists_iff : ∀ b, b ≠ 0 → ((parent b).isSome ↔ b ≤ n)

section

variable {parent parent' : ℕ → Option ℕ} {a b c n : ℕ}

theorem under_zero : ¬Under parent a 0 := by
  intro h
  cases h with
  | self h => exact h rfl
  | up h => exact h rfl

/-- A node lies under itself and under what its parent lies under. -/
theorem under_iff (hb : b ≠ 0) (hc : parent b = some c) :
    Under parent a b ↔ a = b ∨ Under parent a c := by
  constructor
  · intro h
    cases h with
    | self => exact .inl rfl
    | up _ hc' h => rw [hc] at hc'; cases hc'; exact .inr h
  · rintro (rfl | h)
    · exact .self hb
    · exact .up hb hc h

/-- Walk up from `b`, looking for `a`. -/
def search (parent : ℕ → Option ℕ) (a : ℕ) : (fuel : ℕ) → (b : ℕ) → Bool
  | 0, _ => false
  | fuel + 1, b =>
    if b = 0 then false
    else if b = a then true
    else match parent b with
      | some c => search parent a fuel c
      | none => false

/-- Walking up with enough fuel decides `Under`. -/
theorem search_iff (hlt : ∀ b c, parent b = some c → b ≠ 0 → c < b) {fuel : ℕ} :
    ∀ b < fuel, (search parent a fuel b = true ↔ Under parent a b) := by
  induction fuel with
  | zero => intro b hb; omega
  | succ fuel ih =>
    intro b hb
    rw [search]
    split_ifs with h0 ha
    · subst h0
      simp [under_zero]
    · subst ha
      exact iff_of_true rfl (.self h0)
    · cases hc : parent b with
      | none =>
        refine iff_of_false (by simp) fun h => ?_
        cases h with
        | self => exact ha rfl
        | up _ hc' _ => rw [hc] at hc'; cases hc'
      | some c =>
        have hcb := hlt b c hc h0
        rw [under_iff h0 hc, or_iff_right (Ne.symm ha)]
        exact ih c (by omega)

/-- What lies above a node does not change as the forest grows. -/
theorem under_congr (hg : Grown parent n) (h : ∀ b ≤ n, b ≠ 0 → parent' b = parent b) :
    ∀ b ≤ n, (Under parent' a b ↔ Under parent a b) := by
  intro b
  induction b using Nat.strongRecOn with
  | ind b ih =>
    intro hb
    by_cases h0 : b = 0
    · subst h0
      exact iff_of_false under_zero under_zero
    · obtain ⟨c, hc⟩ := Option.isSome_iff_exists.mp ((hg.exists_iff b h0).mpr hb)
      have hcb := hg.lt b c hc h0
      rw [under_iff h0 hc, under_iff h0 ((h b hb h0).trans hc), ih c hcb (by omega)]

end

end JungeyOs.Forest
