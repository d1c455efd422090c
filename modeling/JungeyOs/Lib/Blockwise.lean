import Mathlib.Data.List.Basic
import Mathlib.Data.List.Induction
import Mathlib.Data.Nat.Basic
import Mathlib.Order.Basic

/-!
# A list processed in blocks

A fold that takes `n` elements at a time (`run`), and a buffer that takes them one by one and hands
each full block to the fold (`feed`). How the elements arrive in pieces makes no difference to the
buffer, and its state after any list is the fold over the complete blocks with the rest pending.

Results:
* `feed_eq_run`: what the buffer has done after a list.
* `run_flatMap`: blocks of elements, each of which stands for a string of `k` smaller ones.
-/

namespace JungeyOs.Blockwise

variable {α β σ : Type*} {n : ℕ} {f : σ → List α → σ}

/-- Block `i` of a list. -/
def blockAt (n : ℕ) (L : List α) (i : ℕ) : List α := (L.drop (n * i)).take n

/-- The complete blocks, in order. -/
def run (n : ℕ) (f : σ → List α → σ) (s : σ) (L : List α) : σ :=
  (List.range (L.length / n)).foldl (fun s i => f s (blockAt n L i)) s

/-- The elements after the last complete block. -/
def rest (n : ℕ) (L : List α) : List α := L.drop (n * (L.length / n))

/-- One more element. -/
def push (n : ℕ) (f : σ → List α → σ) (st : σ × List α) (x : α) : σ × List α :=
  if st.2.length + 1 = n then (f st.1 (st.2 ++ [x]), []) else (st.1, st.2 ++ [x])

/-- A list of elements, one by one. -/
def feed (n : ℕ) (f : σ → List α → σ) (st : σ × List α) (L : List α) : σ × List α :=
  L.foldl (push n f) st

theorem feed_append (st : σ × List α) (L M : List α) :
    feed n f st (L ++ M) = feed n f (feed n f st L) M := List.foldl_append

/-- Fewer elements than the block lacks stay pending. -/
theorem feed_of_lt {st : σ × List α} {L : List α} (h : st.2.length + L.length < n) :
    feed n f st L = (st.1, st.2 ++ L) := by
  induction L generalizing st with
  | nil => rw [List.append_nil]; rfl
  | cons x L ih =>
    rw [List.length_cons] at h
    have hpush : push n f st x = (st.1, st.2 ++ [x]) := if_neg (by omega)
    show feed n f (push n f st x) L = _
    rw [hpush, ih (by rw [List.length_append, List.length_singleton]; omega), List.append_assoc]
    rfl

/-- The elements that the block lacks complete it. -/
theorem feed_of_eq {st : σ × List α} {L : List α} (hL : L ≠ [])
    (h : st.2.length + L.length = n) : feed n f st L = (f st.1 (st.2 ++ L), []) := by
  obtain ⟨init, x, rfl⟩ := List.eq_nil_or_concat L |>.resolve_left hL
  rw [List.concat_eq_append, List.length_append, List.length_singleton] at h
  have hlt : st.2.length + init.length < n := by omega
  rw [List.concat_eq_append, feed_append, feed_of_lt hlt]
  show push n f (st.1, st.2 ++ init) x = _
  rw [push, if_pos (by rw [List.length_append]; omega), List.append_assoc]

theorem length_rest (L : List α) : (rest n L).length = L.length % n := by
  rw [rest, List.length_drop, Nat.mod_eq_sub_mul_div]

theorem rest_of_mod {L : List α} (h : L.length % n = 0) : rest n L = [] :=
  List.length_eq_zero_iff.mp ((length_rest L).trans h)

/-- A block before the end of the list does not change when the list grows. -/
theorem blockAt_append {L M : List α} {i : ℕ} (h : n * (i + 1) ≤ L.length) :
    blockAt n (L ++ M) i = blockAt n L i := by
  rw [Nat.mul_add, Nat.mul_one] at h
  rw [blockAt, blockAt, List.drop_append_of_le_length (by omega),
    List.take_append_of_le_length (by rw [List.length_drop]; omega)]

theorem foldl_blockAt_append {L M : List α} {k : ℕ} (h : n * k ≤ L.length) (s : σ) :
    (List.range k).foldl (fun s i => f s (blockAt n (L ++ M) i)) s =
      (List.range k).foldl (fun s i => f s (blockAt n L i)) s := by
  apply List.foldl_ext
  intro s i hi
  have hle : n * (i + 1) ≤ n * k := Nat.mul_le_mul_left n (List.mem_range.mp hi)
  rw [blockAt_append (hle.trans h)]

/-- One more element, when it completes no block. -/
theorem run_concat_of_ne {L : List α} {x : α} (h : (L.length + 1) % n ≠ 0) (s : σ) :
    run n f s (L ++ [x]) = run n f s L ∧ rest n (L ++ [x]) = rest n L ++ [x] := by
  have hdiv : (L ++ [x]).length / n = L.length / n := by
    rw [List.length_append, List.length_singleton, Nat.succ_div_of_mod_ne_zero h]
  have hle : n * (L.length / n) ≤ L.length := Nat.mul_div_le L.length n
  constructor
  · rw [run, run, hdiv, foldl_blockAt_append hle]
  · rw [rest, rest, hdiv, List.drop_append_of_le_length hle]

/-- One more element, when it completes a block. -/
theorem run_concat_of_eq {L : List α} {x : α} (h : (L.length + 1) % n = 0) (s : σ) :
    run n f s (L ++ [x]) = f (run n f s L) (rest n L ++ [x]) ∧ rest n (L ++ [x]) = [] := by
  have hlen : (L ++ [x]).length = L.length + 1 := by rw [List.length_append, List.length_singleton]
  have hle : n * (L.length / n) ≤ L.length := Nat.mul_div_le L.length n
  have hlast : blockAt n (L ++ [x]) (L.length / n) = rest n L ++ [x] := by
    have hfull := Nat.div_add_mod (L.length + 1) n
    rw [h, Nat.succ_div_of_mod_eq_zero h, Nat.mul_add, Nat.mul_one] at hfull
    rw [blockAt, List.drop_append_of_le_length hle, rest]
    apply List.take_of_length_le
    rw [List.length_append, List.length_drop, List.length_singleton]
    omega
  constructor
  · rw [run, hlen, Nat.succ_div_of_mod_eq_zero h, List.range_succ, List.foldl_append,
      foldl_blockAt_append hle, List.foldl_cons, List.foldl_nil, hlast, run]
  · exact rest_of_mod (hlen ▸ h)

/-- The element completes a block exactly when its position says so. -/
theorem length_rest_add_one (hn : 0 < n) (L : List α) :
    (rest n L).length + 1 = n ↔ (L.length + 1) % n = 0 := by
  have hlt := Nat.mod_lt L.length hn
  rw [length_rest, Nat.add_mod]
  constructor
  · intro h
    obtain rfl | hone : n = 1 ∨ 1 < n := by omega
    · exact Nat.mod_one _
    · rw [Nat.mod_eq_of_lt hone, h, Nat.mod_self]
  · intro h
    obtain rfl | hone : n = 1 ∨ 1 < n := by omega
    · rw [Nat.mod_one]
    · rw [Nat.mod_eq_of_lt hone] at h
      by_contra hne
      have hmore : L.length % n + 1 < n := by omega
      rw [Nat.mod_eq_of_lt hmore] at h
      exact Nat.succ_ne_zero _ h

/-- What the buffer has done after a list: the complete blocks are processed and the rest is
pending. -/
theorem feed_eq_run (hn : 0 < n) (s : σ) (L : List α) :
    feed n f (s, []) L = (run n f s L, rest n L) := by
  induction L using List.reverseRecOn with
  | nil =>
    have hzero : ([] : List α).length / n = 0 := Nat.zero_div n
    rw [run, hzero, rest_of_mod (Nat.zero_mod n)]
    rfl
  | append_singleton L x ih =>
    rw [feed_append, ih]
    show push n f (run n f s L, rest n L) x = _
    by_cases h : (L.length + 1) % n = 0
    · rw [push, if_pos ((length_rest_add_one hn L).mpr h), (run_concat_of_eq (f := f) h s).1,
        (run_concat_of_eq (f := f) h s).2]
    · rw [push, if_neg (mt (length_rest_add_one hn L).mp h), (run_concat_of_ne (f := f) h s).1,
        (run_concat_of_ne (f := f) h s).2]

/-! ## Elements that stand for strings -/

section

variable {g : α → List β} {k : ℕ}

theorem length_flatMap_of (hg : ∀ a, (g a).length = k) (L : List α) :
    (L.flatMap g).length = k * L.length := by
  induction L with
  | nil => rfl
  | cons a L ih =>
    rw [List.flatMap_cons, List.length_append, ih, hg, List.length_cons, Nat.mul_succ, Nat.add_comm]

theorem drop_flatMap_of (hg : ∀ a, (g a).length = k) (L : List α) (i : ℕ) :
    (L.flatMap g).drop (k * i) = (L.drop i).flatMap g := by
  induction L generalizing i with
  | nil => rw [List.flatMap_nil, List.drop_nil, List.drop_nil, List.flatMap_nil]
  | cons a L ih =>
    cases i with
    | zero => rfl
    | succ i =>
      rw [List.drop_succ_cons, ← ih, List.flatMap_cons, Nat.mul_succ, Nat.add_comm, ← List.drop_drop,
        ← hg a, List.drop_left]

theorem take_flatMap_of (hg : ∀ a, (g a).length = k) (L : List α) (i : ℕ) :
    (L.flatMap g).take (k * i) = (L.take i).flatMap g := by
  have hsplit : L.flatMap g = (L.take i).flatMap g ++ (L.drop i).flatMap g := by
    rw [← List.flatMap_append, List.take_append_drop]
  rcases Nat.le_total i L.length with hi | hi
  · have hlen : ((L.take i).flatMap g).length = k * i := by
      rw [length_flatMap_of hg, List.length_take, Nat.min_eq_left hi]
    rw [hsplit, ← hlen, List.take_left]
  · rw [List.take_of_length_le hi, List.take_of_length_le]
    rw [length_flatMap_of hg]
    exact Nat.mul_le_mul_left k hi

/-- The place of an element in the concatenation of strings. -/
theorem getElem?_flatMap_of (hk : 0 < k) (hg : ∀ a, (g a).length = k) (L : List α) (i : ℕ) :
    (L.flatMap g)[i]? = L[i / k]?.bind fun a => (g a)[i % k]? := by
  have hdrop : (L.flatMap g)[i]? = ((L.flatMap g).drop (k * (i / k)))[i % k]? := by
    rw [List.getElem?_drop, Nat.div_add_mod]
  rw [hdrop, drop_flatMap_of hg]
  rcases Nat.lt_or_ge (i / k) L.length with h | h
  · rw [List.drop_eq_getElem_cons h, List.flatMap_cons, List.getElem?_eq_getElem h, Option.bind_some,
      List.getElem?_append_left (by rw [hg]; exact Nat.mod_lt i hk)]
  · rw [List.drop_of_length_le h, List.getElem?_eq_none h]
    rfl

/-- The strings of a block of elements are a block of their concatenation. -/
theorem blockAt_flatMap (hg : ∀ a, (g a).length = k) (L : List α) (i : ℕ) :
    blockAt (k * n) (L.flatMap g) i = (blockAt n L i).flatMap g := by
  rw [blockAt, Nat.mul_assoc, drop_flatMap_of hg, take_flatMap_of hg, blockAt]

/-- A fold over blocks of the strings, done on blocks of the elements. -/
theorem run_flatMap {F : σ → List β → σ} (hk : 0 < k) (hg : ∀ a, (g a).length = k) (s : σ)
    (L : List α) :
    run (k * n) F s (L.flatMap g) = run n (fun s block => F s (block.flatMap g)) s L := by
  rw [run, run, length_flatMap_of hg, Nat.mul_div_mul_left _ _ hk]
  apply List.foldl_ext
  intro s i _
  rw [blockAt_flatMap hg]

end

end JungeyOs.Blockwise
