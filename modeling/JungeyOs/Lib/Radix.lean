import Mathlib.Data.List.Induction
import Mathlib.Data.Nat.Basic
import Mathlib.Order.Basic
import Mathlib.Logic.Function.Basic
import Mathlib.Tactic.SplitIfs

/-!
# Radix trees of tables

A store gives each table its entries. An entry may point to a table (`next`), and a path of indices
leads from table to table. In a tree of tables no table is reached along two paths, so that the
entries of a table can be changed without an effect on the other paths.

Results:
* `walk_write`, `find_write`: an entry at the bottom of the tree is written.
* `walk_off`, `find_off`: a table off the tree is overwritten.
* `walk_grow`, `find_grow`, `Tree.grow`: a blank table is hung into the tree.
* `nodup_along`: the tables on the way along a path have different paths.
-/

namespace JungeyOs.Radix

variable {τ ι ε β : Type*}

/-- The table at the end of a path. -/
def walk (next : ε → Option τ) (s : τ → ι → ε) (root : τ) : List ι → Option τ
  | [] => some root
  | i :: path => (next (s root i)).bind fun t => walk next s t path

/-- Some path of at most `depth` indices leads to the table. -/
def Reaches (next : ε → Option τ) (s : τ → ι → ε) (root : τ) (depth : ℕ) (t : τ) : Prop :=
  ∃ p : List ι, p.length ≤ depth ∧ walk next s root p = some t

/-- No table is reached along two paths. -/
def Tree (next : ε → Option τ) (s : τ → ι → ε) (root : τ) (depth : ℕ) : Prop :=
  ∀ (p q : List ι) (t : τ), p.length ≤ depth → q.length ≤ depth → walk next s root p = some t →
    walk next s root q = some t → p = q

/-- The paths to the tables on the way from the end of `p` along `rest`. -/
def along (p : List ι) : List ι → List (List ι)
  | [] => []
  | i :: rest => (p ++ [i]) :: along (p ++ [i]) rest

/-- The value of an entry, if the path leads to a table. -/
def find (next : ε → Option τ) (value : ε → Option β) (s : τ → ι → ε) (root : τ) (path : List ι)
    (i : ι) : Option β :=
  (walk next s root path).bind fun t => value (s t i)

section

variable {next : ε → Option τ} {value : ε → Option β} {s : τ → ι → ε} {root t u : τ} {depth : ℕ}
  {p q : List ι} {i j : ι} {blank link : ε}

theorem walk_concat : walk next s root (p ++ [i]) =
    (walk next s root p).bind fun t => next (s t i) := by
  induction p generalizing root with
  | nil =>
    show (next (s root i)).bind some = next (s root i)
    exact Option.bind_fun_some _
  | cons j p ih =>
    rw [List.cons_append, walk, walk]
    cases next (s root j) with
    | none => rfl
    | some t => exact ih

theorem length_of_mem_along {rest : List ι} (h : q ∈ along p rest) :
    p.length < q.length ∧ q.length ≤ p.length + rest.length := by
  induction rest generalizing p with
  | nil => cases h
  | cons i rest ih =>
    have hlen : (p ++ [i]).length = p.length + 1 := by simp
    rw [List.length_cons]
    rcases List.mem_cons.mp h with rfl | h
    · omega
    · have hq := ih h
      omega

theorem nodup_along {rest : List ι} : (along p rest).Nodup := by
  induction rest generalizing p with
  | nil => exact List.nodup_nil
  | cons i rest ih =>
    refine List.nodup_cons.mpr ⟨fun h => ?_, ih⟩
    exact absurd (length_of_mem_along h).1 (lt_irrefl _)

theorem Tree.congr {s' : τ → ι → ε} (h : Tree next s root depth)
    (hwalk : ∀ p : List ι, p.length ≤ depth → walk next s' root p = walk next s root p) :
    Tree next s' root depth := by
  intro p q t hp hq hpt hqt
  rw [hwalk p hp] at hpt
  rw [hwalk q hq] at hqt
  exact h p q t hp hq hpt hqt

theorem reaches_congr {s' : τ → ι → ε}
    (hwalk : ∀ p : List ι, p.length ≤ depth → walk next s' root p = walk next s root p) :
    Reaches next s' root depth t ↔ Reaches next s root depth t :=
  exists_congr fun p => and_congr_right fun hp => by rw [hwalk p hp]

/-- The paths are the same in stores that agree on the tables above their ends. -/
theorem walk_congr {s' : τ → ι → ε} (h : ∀ (q : List ι) (t : τ), q.length < depth →
    walk next s root q = some t → ∀ i, next (s' t i) = next (s t i)) :
    ∀ {p : List ι}, p.length ≤ depth → walk next s' root p = walk next s root p := by
  intro p
  induction p using List.reverseRecOn with
  | nil => exact fun _ => rfl
  | append_singleton q i ih =>
    intro hlen
    rw [List.length_append, List.length_singleton] at hlen
    rw [walk_concat, walk_concat, ih (by omega)]
    cases hq : walk next s root q with
    | none => rfl
    | some t => exact h q t (by omega) hq i

/-- The entry at the end of the path is empty, and the new table is blank and not in the tree. -/
structure Grows (next : ε → Option τ) (s : τ → ι → ε) (root : τ) (depth : ℕ) (p : List ι) (t u : τ)
    (i : ι) (blank link : ε) : Prop where
  short : p.length < depth
  leads : walk next s root p = some t
  empty : next (s t i) = none
  off : ¬Reaches next s root depth u
  blank : next blank = none
  link : next link = some u

theorem Grows.ne (hg : Grows next s root depth p t u i blank link) : u ≠ t := by
  rintro rfl
  exact hg.off ⟨p, hg.short.le, hg.leads⟩

variable [DecidableEq τ]

/-! ## Changes that no path meets -/

/-- A table off the tree is overwritten. -/
theorem walk_off (hoff : ¬Reaches next s root depth u) (row : ι → ε) (hp : p.length ≤ depth) :
    walk next (Function.update s u row) root p = walk next s root p := by
  refine walk_congr (fun q t hq hqt i => ?_) hp
  have hne : t ≠ u := fun htu => hoff ⟨q, hq.le, htu ▸ hqt⟩
  rw [Function.update_of_ne hne]

theorem find_off (hoff : ¬Reaches next s root depth u) (row : ι → ε) (hp : p.length ≤ depth) :
    find next value (Function.update s u row) root p i = find next value s root p i := by
  unfold find
  rw [walk_off hoff row hp]
  cases hpt : walk next s root p with
  | none => rfl
  | some t =>
    have hne : t ≠ u := fun htu => hoff ⟨p, hp, htu ▸ hpt⟩
    rw [Option.bind_some, Option.bind_some, Function.update_of_ne hne]

/-! ## An entry at the bottom -/

variable [DecidableEq ι]

/-- Write one entry. -/
def write (s : τ → ι → ε) (t : τ) (i : ι) (e : ε) : τ → ι → ε :=
  Function.update s t (Function.update (s t) i e)

theorem write_self (s : τ → ι → ε) (t : τ) (i : ι) (e : ε) : write s t i e t i = e := by
  rw [write, Function.update_self, Function.update_self]

theorem write_of_ne {e : ε} (h : u = t → j ≠ i) : write s t i e u j = s u j := by
  by_cases hu : u = t
  · subst hu
    rw [write, Function.update_self, Function.update_of_ne (h rfl)]
  · rw [write, Function.update_of_ne hu]

theorem walk_write (h : Tree next s root depth) (hp : p.length = depth)
    (hpt : walk next s root p = some t) (e : ε) (hq : q.length ≤ depth) :
    walk next (write s t i e) root q = walk next s root q := by
  refine walk_congr (fun r u hr hru j => ?_) hq
  have hne : u ≠ t := by
    rintro rfl
    have := h p r u hp.le hr.le hpt hru
    subst this
    omega
  rw [write_of_ne fun hut => absurd hut hne]

theorem find_write_self (h : Tree next s root depth) (hp : p.length = depth)
    (hpt : walk next s root p = some t) (e : ε) :
    find next value (write s t i e) root p i = value e := by
  rw [find, walk_write h hp hpt e hp.le, hpt, Option.bind_some, write_self]

theorem find_write_of_ne (h : Tree next s root depth) (hp : p.length = depth)
    (hpt : walk next s root p = some t) (e : ε) (hq : q.length ≤ depth) (hne : ¬(q = p ∧ j = i)) :
    find next value (write s t i e) root q j = find next value s root q j := by
  unfold find
  rw [walk_write h hp hpt e hq]
  cases hqu : walk next s root q with
  | none => rfl
  | some u =>
    rw [Option.bind_some, Option.bind_some, write_of_ne]
    rintro rfl rfl
    exact hne ⟨h q p u hq hp.le hqu hpt, rfl⟩

/-! ## A new table -/

/-- A blank table `u` is hung into the tree at entry `i` of table `t`. -/
def grow (s : τ → ι → ε) (t u : τ) (i : ι) (blank link : ε) : τ → ι → ε :=
  write (Function.update s u fun _ => blank) t i link

theorem grow_new (hne : u ≠ t) (j : ι) : grow s t u i blank link u j = blank := by
  rw [grow, write_of_ne fun hut => absurd hut hne, Function.update_self]

theorem grow_of_ne {x : τ} (hxu : x ≠ u) (hxt : x = t → j ≠ i) :
    grow s t u i blank link x j = s x j := by
  rw [grow, write_of_ne hxt, Function.update_of_ne hxu]

theorem walk_grow (h : Tree next s root depth)
    (hg : Grows next s root depth p t u i blank link) : ∀ {q : List ι}, q.length ≤ depth →
      walk next (grow s t u i blank link) root q =
        if q = p ++ [i] then some u else walk next s root q := by
  have hp := hg.short
  intro q
  induction q using List.reverseRecOn with
  | nil => exact fun _ => (if_neg (by simp)).symm
  | append_singleton q j ih =>
    intro hlen
    rw [List.length_append, List.length_singleton] at hlen
    rw [walk_concat, ih (by omega)]
    by_cases hq : q = p ++ [i]
    · -- past the new table there is nothing yet
      have hlong : q ++ [j] ≠ p ++ [i] := by
        intro heq
        have := congrArg List.length heq
        have := congrArg List.length hq
        simp only [List.length_append, List.length_singleton] at *
        omega
      rw [if_pos hq, if_neg hlong, Option.bind_some, grow_new hg.ne, hg.blank,
        walk_concat, hq, walk_concat, hg.leads, Option.bind_some, hg.empty]
      rfl
    · rw [if_neg hq, walk_concat]
      cases hqx : walk next s root q with
      | none =>
        rw [if_neg]
        · rfl
        · intro heq
          obtain ⟨rfl, -⟩ := List.append_inj' heq rfl
          rw [hg.leads] at hqx
          cases hqx
      | some x =>
        have hxu : x ≠ u := by
          rintro rfl
          exact hg.off ⟨q, by omega, hqx⟩
        rw [Option.bind_some, Option.bind_some]
        by_cases hnew : q ++ [j] = p ++ [i]
        · obtain ⟨rfl, hji⟩ := List.append_inj' hnew rfl
          cases hji
          rw [hg.leads] at hqx
          cases hqx
          rw [if_pos rfl, grow, write_self, hg.link]
        · rw [if_neg hnew, grow_of_ne hxu]
          rintro rfl rfl
          exact hnew (by rw [h q p x (by omega) hp.le hqx hg.leads])

theorem Tree.grow (h : Tree next s root depth) (hg : Grows next s root depth p t u i blank link) :
    Tree next (grow s t u i blank link) root depth := by
  intro q r x hq hr hqx hrx
  rw [walk_grow h hg hq] at hqx
  rw [walk_grow h hg hr] at hrx
  split_ifs at hqx hrx with hqp hrp hrp
  · exact hqp.trans hrp.symm
  · cases hqx
    exact absurd ⟨r, hr, hrx⟩ hg.off
  · cases hrx
    exact absurd ⟨q, hq, hqx⟩ hg.off
  · exact h q r x hq hr hqx hrx

theorem reaches_grow (h : Tree next s root depth)
    (hg : Grows next s root depth p t u i blank link) {x : τ} :
    Reaches next (grow s t u i blank link) root depth x ↔ x = u ∨ Reaches next s root depth x := by
  have hlen : (p ++ [i]).length ≤ depth := by
    rw [List.length_append]
    exact hg.short
  constructor
  · rintro ⟨q, hq, hqx⟩
    rw [walk_grow h hg hq] at hqx
    split_ifs at hqx
    · cases hqx
      exact .inl rfl
    · exact .inr ⟨q, hq, hqx⟩
  · rintro (rfl | ⟨q, hq, hqx⟩)
    · exact ⟨p ++ [i], hlen, by rw [walk_grow h hg hlen, if_pos rfl]⟩
    · refine ⟨q, hq, ?_⟩
      rw [walk_grow h hg hq, if_neg, hqx]
      rintro rfl
      rw [walk_concat, hg.leads, Option.bind_some, hg.empty] at hqx
      cases hqx

/-- No value appears at the bottom of the tree, and none goes. -/
theorem find_grow (h : Tree next s root depth) (hg : Grows next s root depth p t u i blank link)
    (hvalue : value blank = none) (hq : q.length = depth) :
    find next value (grow s t u i blank link) root q j = find next value s root q j := by
  unfold find
  rw [walk_grow h hg hq.le]
  split_ifs with hnew
  · rw [hnew, walk_concat, hg.leads, Option.bind_some, Option.bind_some, hg.empty, grow_new hg.ne,
      hvalue]
    rfl
  · cases hqx : walk next s root q with
    | none => rfl
    | some x =>
      have hxu : x ≠ u := fun hxu => hg.off ⟨q, hq.le, hxu ▸ hqx⟩
      rw [Option.bind_some, Option.bind_some, grow_of_ne hxu]
      rintro rfl
      -- the table above the bottom is another one
      have hpq := h q p x hq.le hg.short.le hqx hg.leads
      have hshort := hg.short
      rw [← hpq, hq] at hshort
      exact absurd hshort (lt_irrefl _)

end

end JungeyOs.Radix
