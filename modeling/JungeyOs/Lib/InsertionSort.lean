import Mathlib.Data.List.Induction
import Mathlib.Order.Lattice

/-!
# Insertion sort by adjacent swaps

The loop `for i in 1..n { j = i; while j > 0 && key[j - 1] > key[j] { swap; j -= 1 } }`
over a list and a key in any linear order.

Results:
* `insertionSort_perm`: the loop permutes its input.
* `insertionSort_sorted`: its output is in order of the key.
* `insertionSort_strict`: and strictly so where no two elements share a key.
-/

namespace JungeyOs.InsertionSort

variable {α β : Type*} [LinearOrder β] (key : α → β)

/-- `order.swap(j, j + 1)`. -/
def swapAt : List α → ℕ → List α
  | a :: b :: l, 0 => b :: a :: l
  | a :: l, j + 1 => a :: swapAt l j
  | l, _ => l

/-- The inner loop: the element at `j` sinks below those of a greater key. -/
def sink : List α → ℕ → List α
  | order, 0 => order
  | order, j + 1 =>
    match order[j]?, order[j + 1]? with
    | some a, some b => if key b < key a then sink (swapAt order j) j else order
    | _, _ => order

/-- The outer loop. -/
def insertionSort (order : List α) : List α :=
  (List.range' 1 (order.length - 1)).foldl (sink key) order

theorem swapAt_append (pre : List α) (a b : α) (post : List α) :
    swapAt (pre ++ a :: b :: post) pre.length = pre ++ b :: a :: post := by
  induction pre with
  | nil => rfl
  | cons c pre ih =>
    simp only [List.cons_append, List.length_cons]
    rw [← ih]
    cases pre <;> rfl

variable {key}

/-- The inner loop puts an element in its place in the sorted part before it. -/
theorem sink_append (pre : List α) (x : α) (post : List α)
    (h : pre.Pairwise fun a b => key a ≤ key b) :
    ∃ ins, sink key (pre ++ x :: post) pre.length = ins ++ post ∧ ins.Perm (pre ++ [x]) ∧
      ins.Pairwise fun a b => key a ≤ key b := by
  induction pre using List.reverseRecOn generalizing post with
  | nil => exact ⟨[x], rfl, .refl _, List.pairwise_singleton _ _⟩
  | append_singleton pre y ih =>
    obtain ⟨hpre, -, hy⟩ := List.pairwise_append.mp h
    have hlen : (pre ++ [y]).length = pre.length + 1 := by simp
    have hl : pre ++ [y] ++ x :: post = pre ++ y :: x :: post := by simp
    rw [hlen, hl, sink]
    have hfst : (pre ++ y :: x :: post)[pre.length]? = some y := by simp
    have hsnd : (pre ++ y :: x :: post)[pre.length + 1]? = some x := by
      rw [List.getElem?_append_right (by omega)]
      simp
    simp only [hfst, hsnd]
    by_cases hlt : key x < key y
    · rw [if_pos hlt, swapAt_append]
      obtain ⟨ins, hins, hperm, hsorted⟩ := ih (y :: post) hpre
      refine ⟨ins ++ [y], by rw [hins]; simp, ?_, ?_⟩
      · have hswap : (pre ++ [x] ++ [y]).Perm (pre ++ [y] ++ [x]) := by
          simpa using (List.Perm.swap y x []).append_left pre
        exact (hperm.append_right [y]).trans hswap
      · apply List.pairwise_append.mpr
        refine ⟨hsorted, List.pairwise_singleton _ _, ?_⟩
        intro a hain b hb
        obtain rfl := List.mem_singleton.mp hb
        have hmem := hperm.mem_iff.mp hain
        rcases List.mem_append.mp hmem with hmem | hmem
        · exact hy a hmem b (List.mem_singleton_self b)
        · obtain rfl := List.mem_singleton.mp hmem
          exact hlt.le
    · rw [if_neg hlt]
      refine ⟨pre ++ [y] ++ [x], by simp, .refl _, ?_⟩
      apply List.pairwise_append.mpr
      refine ⟨h, List.pairwise_singleton _ _, ?_⟩
      intro a ha b hb
      obtain rfl := List.mem_singleton.mp hb
      rcases List.mem_append.mp ha with ha | ha
      · exact (hy a ha y (List.mem_singleton_self y)).trans (not_lt.mp hlt)
      · obtain rfl := List.mem_singleton.mp ha
        exact not_lt.mp hlt

/-- The outer loop from a sorted part `pre` on. -/
theorem foldl_sink (rest : List α) (pre : List α) (h : pre.Pairwise fun a b => key a ≤ key b) :
    ((List.range' pre.length rest.length).foldl (sink key) (pre ++ rest)).Perm (pre ++ rest) ∧
      ((List.range' pre.length rest.length).foldl (sink key) (pre ++ rest)).Pairwise
        fun a b => key a ≤ key b := by
  induction rest generalizing pre with
  | nil => simpa using h
  | cons x rest ih =>
    obtain ⟨ins, hins, hperm, hsorted⟩ := sink_append pre x rest h
    have hlen : ins.length = pre.length + 1 := by simpa using hperm.length_eq
    have hstep : (List.range' pre.length (x :: rest).length).foldl (sink key) (pre ++ x :: rest) =
        (List.range' ins.length rest.length).foldl (sink key) (ins ++ rest) := by
      rw [List.length_cons, List.range'_succ, List.foldl_cons, hins, hlen]
    rw [hstep]
    refine ⟨(ih ins hsorted).1.trans ?_, (ih ins hsorted).2⟩
    simpa using hperm.append_right rest

theorem insertionSort_spec (order : List α) :
    (insertionSort key order).Perm order ∧
      (insertionSort key order).Pairwise fun a b => key a ≤ key b := by
  cases order with
  | nil => simp [insertionSort]
  | cons x rest => exact foldl_sink rest [x] (List.pairwise_singleton _ _)

/-- The loop permutes its input. -/
theorem insertionSort_perm (order : List α) : (insertionSort key order).Perm order :=
  (insertionSort_spec order).1

/-- The output is in order of the key. -/
theorem insertionSort_sorted (order : List α) :
    (insertionSort key order).Pairwise fun a b => key a ≤ key b :=
  (insertionSort_spec order).2

/-- The output is strictly in order where no two elements share a key. -/
theorem insertionSort_strict {order : List α} (hnodup : order.Nodup)
    (hkey : ∀ a ∈ order, ∀ b ∈ order, key a = key b → a = b) :
    (insertionSort key order).Pairwise fun a b => key a < key b := by
  have hperm : (insertionSort key order).Perm order := insertionSort_perm order
  have hne : (insertionSort key order).Nodup := hperm.nodup_iff.mpr hnodup
  apply List.Pairwise.imp_of_mem ?_ ((insertionSort_sorted order).and hne)
  intro a b ha hb h
  apply lt_of_le_of_ne h.1
  intro heq
  exact h.2 (hkey a (hperm.mem_iff.mp ha) b (hperm.mem_iff.mp hb) heq)

end JungeyOs.InsertionSort
