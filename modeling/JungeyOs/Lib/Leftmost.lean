import Mathlib.Data.List.Basic
import Mathlib.Order.Lattice.Nat

/-!
# The leftmost least entry of a list

Of the entries of a list that are eligible, the one whose key is least, and among equals the
leftmost. Stated of a position in the list, or of none.

Results:
* `Leftmost.unique`: there is one such position at most.
* `Leftmost.append_skip`, `Leftmost.append_keep`, `Leftmost.append_take`: what becomes of it when
  one more entry is seen.
-/

namespace JungeyOs

variable {α κ : Type*} [LinearOrder κ] {p : α → Prop} {key : α → κ} {l : List α} {x y : α}
  {o o' : Option ℕ} {i j : ℕ}

/-- `o` is the leftmost of the eligible positions with the least key, if any is eligible. -/
def Leftmost (p : α → Prop) (key : α → κ) (l : List α) : Option ℕ → Prop
  | none => ∀ x ∈ l, ¬p x
  | some i => ∃ x, l[i]? = some x ∧ p x ∧
      ∀ k y, l[k]? = some y → p y → key x < key y ∨ key x = key y ∧ i ≤ k

namespace Leftmost

theorem nil : Leftmost p key [] none := fun _ hx => absurd hx List.not_mem_nil

theorem lt_length (h : Leftmost p key l (some i)) : i < l.length := by
  obtain ⟨x, hx, -⟩ := h
  exact (List.getElem?_eq_some_iff.mp hx).1

/-- An entry of an appended list is an old one or the new one. -/
theorem getElem?_append_singleton (k : ℕ) : (l ++ [x])[k]? = some y ↔
    l[k]? = some y ∨ k = l.length ∧ x = y := by
  rcases Nat.lt_trichotomy k l.length with hk | rfl | hk
  · rw [List.getElem?_append_left hk]
    exact ⟨.inl, fun h => h.resolve_right fun h' => hk.ne h'.1⟩
  · simp
  · have hnone : l[k]? = none := List.getElem?_eq_none hk.le
    rw [List.getElem?_eq_none (by rw [List.length_append, List.length_singleton]; omega), hnone]
    simp [hk.ne']

/-- The entry that is seen is not eligible. -/
theorem append_skip (h : Leftmost p key l o) (hx : ¬p x) : Leftmost p key (l ++ [x]) o := by
  cases o with
  | none =>
    intro y hy
    rcases List.mem_append.mp hy with hy | hy
    · exact h y hy
    · rwa [List.mem_singleton.mp hy]
  | some i =>
    obtain ⟨m, hm, hp, hleast⟩ := h
    refine ⟨m, (getElem?_append_singleton i).mpr (.inl hm), hp, fun k y hy hpy => ?_⟩
    rcases (getElem?_append_singleton k).mp hy with hy | ⟨-, rfl⟩
    · exact hleast k y hy hpy
    · exact absurd hpy hx

/-- The entry that is seen is not less than the one kept. -/
theorem append_keep (h : Leftmost p key l (some i)) (hy : l[i]? = some y) (hle : key y ≤ key x) :
    Leftmost p key (l ++ [x]) (some i) := by
  have hi := h.lt_length
  obtain ⟨m, hm, hp, hleast⟩ := h
  obtain rfl : y = m := Option.some.inj (hy.symm.trans hm)
  refine ⟨y, (getElem?_append_singleton i).mpr (.inl hm), hp, fun k z hz hpz => ?_⟩
  rcases (getElem?_append_singleton k).mp hz with hz | ⟨rfl, rfl⟩
  · exact hleast k z hz hpz
  · -- among equals the one seen last comes last
    rcases hle.lt_or_eq with hlt | heq
    · exact .inl hlt
    · exact .inr ⟨heq, hi.le⟩

/-- The entry that is seen is less than the one kept, or it is the first that is eligible. -/
theorem append_take (h : Leftmost p key l o) (hx : p x)
    (hlt : ∀ i ∈ o, ∀ y, l[i]? = some y → key x < key y) :
    Leftmost p key (l ++ [x]) (some l.length) := by
  refine ⟨x, (getElem?_append_singleton _).mpr (.inr ⟨rfl, rfl⟩), hx, fun k y hy hpy => ?_⟩
  rcases (getElem?_append_singleton k).mp hy with hy | ⟨rfl, rfl⟩
  · cases o with
    | none => exact absurd hpy (h y (List.mem_of_getElem? hy))
    | some i =>
      obtain ⟨m, hm, -, hleast⟩ := h
      have hxm := hlt i rfl m hm
      rcases hleast k y hy hpy with hmy | ⟨hmy, -⟩
      · exact .inl (hxm.trans hmy)
      · exact .inl (hmy ▸ hxm)
  · exact .inr ⟨rfl, le_rfl⟩

theorem unique (h : Leftmost p key l o) (h' : Leftmost p key l o') : o = o' := by
  cases o with
  | none =>
    cases o' with
    | none => rfl
    | some j =>
      obtain ⟨y, hy, hpy, -⟩ := h'
      exact absurd hpy (h y (List.mem_of_getElem? hy))
  | some i =>
    obtain ⟨x, hx, hpx, hleast⟩ := h
    cases o' with
    | none => exact absurd hpx (h' x (List.mem_of_getElem? hx))
    | some j =>
      obtain ⟨y, hy, hpy, hleast'⟩ := h'
      congr 1
      rcases hleast j y hy hpy with hlt | ⟨heq, hij⟩
      · rcases hleast' i x hx hpx with hlt' | ⟨heq', -⟩
        · exact absurd hlt' hlt.asymm
        · exact absurd heq' hlt.ne'
      · rcases hleast' i x hx hpx with hlt' | ⟨-, hji⟩
        · exact absurd heq hlt'.ne'
        · exact le_antisymm hij hji

/-- Two keys that order the entries alike have the same leftmost least entry. -/
theorem congr_key {κ' : Type*} [LinearOrder κ'] {key' : α → κ'} (h : Leftmost p key l o)
    (hiff : ∀ x ∈ l, ∀ y ∈ l, (key x < key y ↔ key' x < key' y)) : Leftmost p key' l o := by
  cases o with
  | none => exact h
  | some i =>
    obtain ⟨x, hx, hpx, hleast⟩ := h
    refine ⟨x, hx, hpx, fun k y hy hpy => ?_⟩
    have hxy := hiff x (List.mem_of_getElem? hx) y (List.mem_of_getElem? hy)
    have hyx := hiff y (List.mem_of_getElem? hy) x (List.mem_of_getElem? hx)
    rcases hleast k y hy hpy with hlt | ⟨heq, hik⟩
    · exact .inl (hxy.mp hlt)
    · have hle : key' x ≤ key' y := not_lt.mp fun hlt => (hyx.mpr hlt).ne heq.symm
      have hge : key' y ≤ key' x := not_lt.mp fun hlt => (hxy.mpr hlt).ne heq
      exact .inr ⟨le_antisymm hle hge, hik⟩

end Leftmost

end JungeyOs
