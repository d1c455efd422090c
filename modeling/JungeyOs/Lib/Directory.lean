import Mathlib.Algebra.GroupWithZero.Nat
import Mathlib.Data.List.Basic
import Mathlib.Data.List.Perm.Basic

/-!
# Directories as lists

A directory is a list of entries, each with a key, in which a lookup takes the
first entry of a key. An entry is put in place of the first one of its key, or
after the last entry; it is removed by closing the gap.

Results:
* `lookup_put_self`, `lookup_put_ne`, `lookup_remove_ne`, `lookup_remove_self`:
  what a lookup gives after each operation.
* `put_perm`, `remove_perm`: putting an entry and removing the first one of the
  same key amount to the same but for the entry put.
* `Rare.put`, `Rare.remove`: a key that occurs at most once does so afterwards.
-/

namespace JungeyOs.Dir

variable {ε κ : Type*} [DecidableEq κ]

/-- The first entry of key `n`. -/
def lookup (key : ε → κ) (l : List ε) (n : κ) : Option ε := l.find? fun x => key x = n

/-- The directory with `e` as the entry that `n` leads to. -/
def put (key : ε → κ) : List ε → κ → ε → List ε
  | [], _, e => [e]
  | x :: l, n, e => if key x = n then e :: l else x :: put key l n e

/-- The directory without its first entry of key `n`. -/
def remove (key : ε → κ) : List ε → κ → List ε
  | [], _ => []
  | x :: l, n => if key x = n then l else x :: remove key l n

variable {key : ε → κ} {l : List ε} {n m : κ} {e x : ε}

@[simp] theorem lookup_nil : lookup key [] n = none := rfl

@[simp] theorem lookup_cons :
    lookup key (x :: l) n = if key x = n then some x else lookup key l n := by
  by_cases h : key x = n <;> simp [lookup, h]

@[simp] theorem put_cons :
    put key (x :: l) n e = if key x = n then e :: l else x :: put key l n e := rfl

@[simp] theorem remove_cons :
    remove key (x :: l) n = if key x = n then l else x :: remove key l n := rfl

theorem lookup_eq_none : lookup key l n = none ↔ ∀ x ∈ l, key x ≠ n := by
  simp [lookup]

theorem key_of_lookup (h : lookup key l n = some x) : key x = n := by
  simpa using List.find?_some h

theorem mem_of_lookup (h : lookup key l n = some x) : x ∈ l := List.mem_of_find?_eq_some h

/-! ## Lookups after an operation -/

theorem lookup_put_self (he : key e = n) : lookup key (put key l n e) n = some e := by
  induction l with
  | nil => simp [put, he]
  | cons y l ih =>
    by_cases hy : key y = n
    · simp [hy, he]
    · simp [hy, ih]

theorem lookup_put_ne (he : key e ≠ m) (hn : n ≠ m) :
    lookup key (put key l n e) m = lookup key l m := by
  induction l with
  | nil => simp [put, he]
  | cons y l ih =>
    by_cases hy : key y = n
    · simp [hy, he, hn]
    · by_cases hym : key y = m
      · simp [hym, hn.symm]
      · simp [hy, hym, ih]

/-- Where no entry is replaced, every lookup that succeeded gives the same. -/
theorem lookup_put_of_none (hn : lookup key l n = none) (hx : lookup key l m = some x) :
    lookup key (put key l n e) m = some x := by
  induction l with
  | nil => simp at hx
  | cons y l ih =>
    rw [lookup_cons] at hn hx
    have hy : key y ≠ n := by
      rintro rfl
      simp at hn
    rw [if_neg hy] at hn
    rw [put_cons, if_neg hy, lookup_cons]
    by_cases hym : key y = m
    · rwa [if_pos hym] at hx ⊢
    · rw [if_neg hym] at hx
      rw [if_neg hym, ih hn hx]

theorem lookup_remove_ne (hm : m ≠ n) : lookup key (remove key l n) m = lookup key l m := by
  induction l with
  | nil => rfl
  | cons y l ih =>
    by_cases hy : key y = n
    · simp [hy, hm.symm]
    · by_cases hym : key y = m
      · simp [hym, hm]
      · simp [hy, hym, ih]

/-! ## Entries after an operation -/

theorem put_of_none (h : lookup key l n = none) : put key l n e = l ++ [e] := by
  induction l with
  | nil => rfl
  | cons y l ih =>
    rw [lookup_cons] at h
    by_cases hy : key y = n
    · simp [hy] at h
    · rw [if_neg hy] at h
      simp [hy, ih h]

theorem remove_of_none (h : lookup key l n = none) : remove key l n = l := by
  induction l with
  | nil => rfl
  | cons y l ih =>
    rw [lookup_cons] at h
    by_cases hy : key y = n
    · simp [hy] at h
    · rw [if_neg hy] at h
      simp [hy, ih h]

/-- Up to its order the directory is what `remove` leaves, and the entry put. -/
theorem put_perm : (put key l n e).Perm (e :: remove key l n) := by
  induction l with
  | nil => exact List.Perm.refl _
  | cons y l ih =>
    by_cases hy : key y = n
    · simp [hy]
    · simp only [put_cons, remove_cons, if_neg hy]
      exact (List.Perm.cons y ih).trans (List.Perm.swap e y _)

/-- Up to its order the directory is what `remove` leaves, and the entry it took. -/
theorem remove_perm (h : lookup key l n = some x) : l.Perm (x :: remove key l n) := by
  induction l with
  | nil => simp at h
  | cons y l ih =>
    rw [lookup_cons] at h
    by_cases hy : key y = n
    · rw [if_pos hy] at h
      rw [remove_cons, if_pos hy, Option.some.inj h]
    · rw [if_neg hy] at h
      rw [remove_cons, if_neg hy]
      exact (List.Perm.cons y (ih h)).trans (List.Perm.swap x y _)

theorem remove_sublist : List.Sublist (remove key l n) l := by
  induction l with
  | nil => exact List.Sublist.refl _
  | cons y l ih =>
    by_cases hy : key y = n
    · simp [hy]
    · simp [hy, ih]

theorem mem_put (h : x ∈ put key l n e) : x = e ∨ x ∈ remove key l n :=
  List.mem_cons.mp (put_perm.mem_iff.mp h)

theorem self_mem_put : e ∈ put key l n e := put_perm.mem_iff.mpr List.mem_cons_self

theorem mem_put_of_ne (h : x ∈ l) (hx : key x ≠ n) : x ∈ put key l n e := by
  induction l with
  | nil => cases h
  | cons y l ih =>
    rw [put_cons]
    rcases List.mem_cons.mp h with rfl | h
    · rw [if_neg hx]
      exact List.mem_cons_self
    · split_ifs
      · exact List.mem_cons_of_mem _ h
      · exact List.mem_cons_of_mem _ (ih h)

/-- A symmetric relation between the entries is kept by putting one that is so
related to all that remain. -/
theorem pairwise_put {R : ε → ε → Prop} (hsymm : ∀ {a b}, R a b → R b a) (hl : l.Pairwise R)
    (he : ∀ y ∈ remove key l n, R e y) : (put key l n e).Pairwise R :=
  (put_perm.pairwise_iff hsymm).mpr (List.pairwise_cons.mpr ⟨he, hl.sublist remove_sublist⟩)

/-- The entry that a lookup gives does not remain when it is removed, unless it may
stand beside itself. -/
theorem not_mem_remove {R : ε → ε → Prop} (hsymm : ∀ {a b}, R a b → R b a) (hl : l.Pairwise R)
    (hx : lookup key l n = some x) (hirr : ¬R x x) : x ∉ remove key l n := by
  intro hmem
  have hcons := ((remove_perm hx).pairwise_iff hsymm).mp hl
  exact hirr ((List.pairwise_cons.mp hcons).1 x hmem)

/-- What the entries have in common with those they replace does not change. -/
theorem map_put_eq {β : Type*} {f : ε → β} (h : lookup key l n = some x) (he : f e = f x) :
    (put key l n e).map f = l.map f := by
  induction l with
  | nil => simp at h
  | cons y l ih =>
    rw [lookup_cons] at h
    by_cases hy : key y = n
    · rw [if_pos hy] at h
      rw [put_cons, if_pos hy, List.map_cons, List.map_cons, he, Option.some.inj h]
    · rw [if_neg hy] at h
      simp [hy, ih h]

/-- The keys do not change when an entry takes the place of one of the same key. -/
theorem map_put (h : lookup key l n = some x) (he : key e = n) :
    (put key l n e).map key = l.map key :=
  map_put_eq h (he.trans (key_of_lookup h).symm)

/-- Where no two entries share a key, a lookup gives the entry of that key. -/
theorem lookup_of_mem (hnodup : (l.map key).Nodup) (hx : x ∈ l) : lookup key l (key x) = some x := by
  induction l with
  | nil => cases hx
  | cons y l ih =>
    obtain ⟨hy, hnodup⟩ := List.nodup_cons.mp hnodup
    rw [lookup_cons]
    rcases List.mem_cons.mp hx with rfl | hx
    · rw [if_pos rfl]
    · have hne : key y ≠ key x := fun heq => hy (heq ▸ List.mem_map_of_mem hx)
      rw [if_neg hne, ih hnodup hx]

/-- Where no two entries share a key, putting an entry replaces all entries of its key. -/
theorem put_eq_map (hnodup : (l.map key).Nodup) (h : lookup key l n = some x) :
    put key l n e = l.map fun y => if key y = n then e else y := by
  induction l with
  | nil => simp at h
  | cons y l ih =>
    obtain ⟨hy, hnodup⟩ := List.nodup_cons.mp hnodup
    rw [lookup_cons] at h
    rw [put_cons, List.map_cons]
    by_cases hyn : key y = n
    · have hrest : l.map (fun z => if key z = n then e else z) = l.map id := by
        refine List.map_congr_left fun z hz => if_neg fun hzn => hy ?_
        rw [hyn, ← hzn]
        exact List.mem_map_of_mem hz
      rw [if_pos hyn, if_pos hyn, hrest, List.map_id]
    · rw [if_neg hyn] at h
      rw [if_neg hyn, if_neg hyn, ih hnodup h]

/-- A sum over the entries when one of them is replaced. -/
theorem sum_put (g : ε → ℕ) (h : lookup key l n = some x) :
    ((put key l n e).map g).sum + g x = (l.map g).sum + g e := by
  rw [((put_perm (e := e)).map g).sum_nat, ((remove_perm h).map g).sum_nat, List.map_cons,
    List.map_cons, List.sum_cons, List.sum_cons]
  omega

omit [DecidableEq κ] in
/-- Where no two entries share a key, at most one has what only entries of key `n` have. -/
theorem sum_indicator {P : ε → Prop} [DecidablePred P] (hnodup : (l.map key).Nodup)
    (hP : ∀ x ∈ l, P x → key x = n) :
    (l.map fun x => if P x then 1 else 0).sum = if ∃ x ∈ l, P x then 1 else 0 := by
  induction l with
  | nil => simp
  | cons y l ih =>
    obtain ⟨hy, hnodup⟩ := List.nodup_cons.mp hnodup
    rw [List.map_cons, List.sum_cons, ih hnodup fun x hx => hP x (List.mem_cons_of_mem _ hx)]
    by_cases hPy : P y
    · have hrest : ¬∃ x ∈ l, P x := by
        rintro ⟨x, hx, hPx⟩
        refine hy (List.mem_map.mpr ⟨x, hx, ?_⟩)
        rw [hP x (List.mem_cons_of_mem _ hx) hPx, hP y List.mem_cons_self hPy]
      rw [if_pos hPy, if_neg hrest, if_pos ⟨y, List.mem_cons_self, hPy⟩]
    · have hiff : (∃ x ∈ y :: l, P x) ↔ ∃ x ∈ l, P x := by simp [hPy]
      rw [if_neg hPy, Nat.zero_add]
      exact if_congr hiff.symm rfl rfl

/-- Where the first entry of key `n` stands, and what the operations do there. -/
theorem findIdx_cases (key : ε → κ) (l : List ε) (n : κ) :
    (l.findIdx? (fun x => key x = n) = none ∧ lookup key l n = none) ∨
      ∃ i x, l.findIdx? (fun x => key x = n) = some i ∧ l[i]? = some x ∧
        lookup key l n = some x ∧ (∀ e, put key l n e = l.set i e) ∧
        remove key l n = l.eraseIdx i := by
  induction l with
  | nil => exact .inl ⟨rfl, rfl⟩
  | cons y l ih =>
    by_cases hy : key y = n
    · exact .inr ⟨0, y, by simp [List.findIdx?_cons, hy], rfl, by simp [hy], by simp [hy],
        by simp [hy]⟩
    · rcases ih with ⟨hidx, hnone⟩ | ⟨i, x, hidx, hget, hlook, hput, hremove⟩
      · exact .inl ⟨by simp [List.findIdx?_cons, hy, hidx], by simp [hy, hnone]⟩
      · exact .inr ⟨i + 1, x, by simp [List.findIdx?_cons, hy, hidx], hget, by simp [hy, hlook],
          by simp [hy, hput], by simp [hy, hremove]⟩

/-! ## Keys that occur once -/

/-- At most one entry has key `n`. -/
def Rare (key : ε → κ) (l : List ε) (n : κ) : Prop := ∀ x ∈ remove key l n, key x ≠ n

theorem rare_of_none (h : lookup key l n = none) : Rare key l n := by
  intro x hx
  rw [remove_of_none h] at hx
  exact lookup_eq_none.mp h x hx

theorem lookup_remove_self (h : Rare key l n) : lookup key (remove key l n) n = none :=
  lookup_eq_none.mpr h

/-- Only the entries of key `n` count. -/
theorem rare_iff : Rare key l n ↔ (l.filter fun x => key x = n).length ≤ 1 := by
  induction l with
  | nil => simp [Rare, remove]
  | cons y l ih =>
    unfold Rare at ih ⊢
    by_cases hy : key y = n
    · simp [hy, List.filter_eq_nil_iff]
    · simp [hy, ih]

theorem Rare.put (he : key e = n ∨ key e ≠ m) (h : Rare key l m) :
    Rare key (put key l n e) m := by
  by_cases hm : key e = m
  · -- the entry put is then the only one
    have hn : n = m := (he.resolve_right (not_not.mpr hm)).symm.trans hm
    subst hn
    rw [rare_iff, (put_perm.filter _).length_eq]
    have hnil : (remove key l n).filter (fun x => key x = n) = [] := by
      simp only [List.filter_eq_nil_iff, decide_eq_true_eq]
      exact h
    simp [hm, hnil]
  · rw [rare_iff] at h ⊢
    rw [(put_perm.filter _).length_eq, List.filter_cons_of_neg (by simpa using hm)]
    exact Nat.le_trans (remove_sublist.filter _).length_le h

theorem Rare.remove (h : Rare key l m) : Rare key (remove key l n) m := by
  rw [rare_iff] at h ⊢
  exact Nat.le_trans (remove_sublist.filter _).length_le h

end JungeyOs.Dir
