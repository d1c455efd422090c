import Mathlib.Data.List.Basic
import Mathlib.Logic.Function.Basic

/-!
# Painting

A picture is made by a list of writes `(p, c)`: place `p` takes the value `c`. What a
place holds afterwards is its last write, or what it held before.

Results:
* `apply_eq`: the picture after the writes, place by place.
* `last_append`, `last_flatMap_filter`: the last write of one list after another.
* `repaint`: painting only the places whose last write may have changed gives the whole
  new picture.
-/

namespace JungeyOs.Painter

variable {P C ι : Type*} [DecidableEq P]

/-- The value of the last write to `p`. -/
def last (ws : List (P × C)) (p : P) : Option C :=
  ws.foldl (fun best w => if w.1 = p then some w.2 else best) none

/-- The picture after the writes. -/
def apply (ws : List (P × C)) (fb : P → C) : P → C :=
  ws.foldl (fun fb w => Function.update fb w.1 w.2) fb

theorem foldl_last (ws : List (P × C)) (p : P) (best : Option C) :
    ws.foldl (fun best w => if w.1 = p then some w.2 else best) best = (last ws p).or best := by
  induction ws generalizing best with
  | nil => simp [last]
  | cons w ws ih =>
    rw [last, List.foldl_cons, List.foldl_cons, ih, ih]
    by_cases h : w.1 = p
    · simp [h]
    · simp [h]

@[simp]
theorem last_nil (p : P) : last ([] : List (P × C)) p = none := rfl

/-- What is painted later covers what was painted before. -/
theorem last_append (ws ws' : List (P × C)) (p : P) :
    last (ws ++ ws') p = (last ws' p).or (last ws p) := by
  rw [last, List.foldl_append, foldl_last]
  rfl

theorem last_cons (w : P × C) (ws : List (P × C)) (p : P) :
    last (w :: ws) p = (last ws p).or (if w.1 = p then some w.2 else none) := by
  rw [last, List.foldl_cons, foldl_last]

/-- The picture after the writes, place by place. -/
theorem apply_eq (ws : List (P × C)) (fb : P → C) (p : P) :
    apply ws fb p = (last ws p).getD (fb p) := by
  induction ws generalizing fb with
  | nil => rfl
  | cons w ws ih =>
    rw [apply, List.foldl_cons]
    have hrest := ih (Function.update fb w.1 w.2)
    rw [apply] at hrest
    rw [hrest, last_cons]
    by_cases h : w.1 = p
    · subst h
      cases last ws w.1 <;> simp
    · cases last ws p <;> simp [h, Function.update_of_ne (Ne.symm h)]

theorem mem_of_last {ws : List (P × C)} {p : P} {c : C} (h : last ws p = some c) :
    (p, c) ∈ ws := by
  induction ws with
  | nil => simp at h
  | cons w ws ih =>
    rw [last_cons] at h
    cases hl : last ws p with
    | some d =>
      rw [hl] at h
      exact List.mem_cons_of_mem _ (ih (by rw [hl]; simpa using h))
    | none =>
      rw [hl, Option.none_or] at h
      by_cases hw : w.1 = p
      · rw [if_pos hw] at h
        obtain rfl := Option.some.inj h
        rw [← hw]
        exact List.mem_cons_self
      · rw [if_neg hw] at h
        cases h

theorem last_eq_none_iff {ws : List (P × C)} {p : P} :
    last ws p = none ↔ ∀ c, (p, c) ∉ ws := by
  constructor
  · intro h c hc
    induction ws with
    | nil => cases hc
    | cons w ws ih =>
      rw [last_cons, Option.or_eq_none_iff] at h
      rcases List.mem_cons.mp hc with rfl | hc
      · simp at h
      · exact ih h.1 hc
  · intro h
    cases hl : last ws p with
    | none => rfl
    | some c => exact absurd (mem_of_last hl) (h c)

/-- Writes that all have one value. -/
theorem last_const {ws : List (P × C)} {c : C} (h : ∀ w ∈ ws, w.2 = c) (p : P) :
    last ws p = none ∨ last ws p = some c ∧ (p, c) ∈ ws := by
  cases hl : last ws p with
  | none => exact Or.inl rfl
  | some d =>
    have hmem := mem_of_last hl
    have hd : d = c := h _ hmem
    subst hd
    exact Or.inr ⟨rfl, hmem⟩

/-- The last of the painters `l` to write to `p`. -/
def lastPainter (f : ι → List (P × C)) (l : List ι) (p : P) : Option ι :=
  l.reverse.find? fun i => (last (f i) p).isSome

/-- Painters that write nothing to `p` do not matter there. -/
theorem last_flatMap_filter (f : ι → List (P × C)) (l : List ι) (p : P) (q : ι → Bool)
    (h : ∀ i ∈ l, q i = false → last (f i) p = none) :
    last ((l.filter q).flatMap f) p = last (l.flatMap f) p := by
  induction l with
  | nil => rfl
  | cons i l ih =>
    have hrest := ih fun j hj => h j (List.mem_cons_of_mem _ hj)
    rw [List.flatMap_cons, last_append, ← hrest]
    cases hq : q i with
    | true => rw [List.filter_cons_of_pos hq, List.flatMap_cons, last_append]
    | false =>
      rw [List.filter_cons_of_neg (by simp [hq]), h i List.mem_cons_self hq, Option.or_none]

/-- Let the picture show `ws₀`, and `ws` differ from it in the places of `D` only. Then
painting `ws` in `D` alone shows `ws`. -/
theorem repaint {ws₀ ws cut : List (P × C)} {fb : P → C} {D : P → Prop} [DecidablePred D]
    (hshown : ∀ p, fb p = (last ws₀ p).getD (fb p))
    (hsame : ∀ p, ¬D p → last ws p = last ws₀ p)
    (hcut : ∀ p, last cut p = if D p then last ws p else none) (p : P) :
    apply cut fb p = (last ws p).getD (fb p) := by
  rw [apply_eq, hcut]
  by_cases h : D p
  · rw [if_pos h]
  · rw [if_neg h, hsame p h, ← hshown p]
    rfl

end JungeyOs.Painter
