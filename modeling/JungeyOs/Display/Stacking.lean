import JungeyOs.Display.Wm

/-!
# The stack of windows

The stacking order is computed twice: `hit` takes the greatest `z` among the windows that
contain a point, and `paint` sorts the used windows by `z`. Both rely on `z` being
distinct, which all operations of `user/src/wm.rs` keep.

Results:
* `inv_change`, `inv_run`: names and `z` are distinct after any operations (`Inv`).
* `hit_eq_some_iff`, `hit_eq_none_iff`: `hit` returns the topmost window that contains the
  point.
* `mem_order`, `order_strict`: `paint` takes each used window once, bottom to top.
* `stacking`: all of these after any operations.
-/

namespace JungeyOs.Display

open InsertionSort

namespace Wm

/-- The operations on a window, with the sender and the id that they name. -/
inductive Op
  | create (owner : ℕ) (id : UInt8) (rect : Rect) (bg : UInt32) (title : List UInt8)
  | raise (owner : ℕ) (id : UInt8)
  | push (owner : ℕ) (id : UInt8) (cmd : Cmd)
  | reset (owner : ℕ) (id : UInt8)
  | move (owner : ℕ) (id : UInt8) (x y : ℕ)

namespace Op

def owner : Op → ℕ
  | .create owner _ _ _ _ | .raise owner _ | .push owner _ _ | .reset owner _
  | .move owner _ _ _ => owner

def id : Op → UInt8
  | .create _ id _ _ _ | .raise _ id | .push _ id _ | .reset _ id | .move _ id _ _ => id

/-- The operation is on a window that is there already. -/
def Names : Op → Prop
  | .create .. => False
  | _ => True

def apply (m : Wm) : Op → Wm
  | .create owner id rect bg title => (m.create owner id rect bg title).1
  | .raise owner id => (m.raise owner id).1
  | .push owner id cmd => (m.push owner id cmd).1
  | .reset owner id => (m.reset owner id).1
  | .move owner id x y => (m.move owner id x y).1

theorem apply_change (m : Wm) (op : Op) : Change m (op.apply m) op.owner op.id := by
  cases op with
  | create owner id rect bg title => exact m.create_change owner id rect bg title
  | raise owner id => exact m.raise_change owner id
  | push owner id cmd => exact m.push_change owner id cmd
  | reset owner id => exact m.reset_change owner id
  | move owner id x y => exact m.move_change owner id x y

end Op

/-- The table after a sequence of operations. -/
def run (m : Wm) (ops : List Op) : Wm := ops.foldl Op.apply m

/-! ## The invariant -/

/-- Used windows have distinct names and distinct `z`, below `next_z`. -/
structure Inv (m : Wm) : Prop where
  names : ∀ i j, (m.windows i).used → (m.windows j).used →
    (m.windows i).owner = (m.windows j).owner → (m.windows i).id = (m.windows j).id → i = j
  distinct : ∀ i j, (m.windows i).used → (m.windows j).used →
    (m.windows i).z = (m.windows j).z → i = j
  below : ∀ i, (m.windows i).used → (m.windows i).z < m.nextZ

theorem inv_new : Inv new where
  names i _ h := by simp [new, Window.BLANK] at h
  distinct i _ h := by simp [new, Window.BLANK] at h
  below i h := by simp [new, Window.BLANK] at h

/-- A slot takes a window whose name and `z` no other slot has. -/
theorem inv_update {m m' : Wm} (hm : Inv m) {i : Fin MAX_WINDOWS} {w : Window}
    (hwindows : m'.windows = Function.update m.windows i w)
    (hname : ∀ j, j ≠ i → (m.windows j).used → (m.windows j).owner = w.owner →
      (m.windows j).id ≠ w.id)
    (hz : ∀ j, j ≠ i → (m.windows j).used → (m.windows j).z ≠ w.z)
    (hnext : m.nextZ ≤ m'.nextZ) (hbelow : w.z < m'.nextZ) : Inv m' where
  names := by
    intro j k
    rw [hwindows]
    by_cases hj : j = i
    · subst hj
      by_cases hk : k = j
      · exact fun _ _ _ _ => hk.symm
      · simp only [Function.update_self, Function.update_of_ne hk]
        intro _ hused howner hid
        exact absurd hid.symm (hname k hk hused howner.symm)
    · by_cases hk : k = i
      · subst hk
        simp only [Function.update_self, Function.update_of_ne hj]
        intro hused _ howner hid
        exact absurd hid (hname j hj hused howner)
      · simp only [Function.update_of_ne hj, Function.update_of_ne hk]
        exact hm.names j k
  distinct := by
    intro j k
    rw [hwindows]
    by_cases hj : j = i
    · subst hj
      by_cases hk : k = j
      · exact fun _ _ _ => hk.symm
      · simp only [Function.update_self, Function.update_of_ne hk]
        intro _ hused heq
        exact absurd heq.symm (hz k hk hused)
    · by_cases hk : k = i
      · subst hk
        simp only [Function.update_self, Function.update_of_ne hj]
        intro hused _ heq
        exact absurd heq (hz j hj hused)
      · simp only [Function.update_of_ne hj, Function.update_of_ne hk]
        exact hm.distinct j k
  below := by
    intro j
    rw [hwindows]
    by_cases hj : j = i
    · subst hj
      intro _
      simpa using hbelow
    · simp only [Function.update_of_ne hj]
      intro hused
      have hlt := hm.below j hused
      omega

/-- Every operation keeps the invariant. -/
theorem inv_change {m m' : Wm} {owner : ℕ} {id : UInt8} (hm : Inv m)
    (h : Change m m' owner id) : Inv m' := by
  cases h with
  | nothing hwindows hz hdamage =>
    constructor
    · rw [hwindows]
      exact hm.names
    · rw [hwindows]
      exact hm.distinct
    · rw [hwindows]
      intro i hused
      have hlt := hm.below i hused
      omega
  | opened i w hfind hfree hwindows hused howner hid hz hnext hcovers =>
    apply inv_update hm hwindows
    · intro j _ hj hjo
      rw [hid]
      exact find_eq_none_iff.mp hfind j hj (hjo.trans howner)
    · intro j _ hj
      have hlt := hm.below j hj
      omega
    · omega
    · omega
  | changed i w hfind hwindows hused howner hid hz hbefore hafter =>
    obtain ⟨hi, hio, hiid⟩ := find_eq_some hfind
    have hilt := hm.below i hi
    apply inv_update hm hwindows
    · intro j hj hju hjo hjid
      apply hj
      exact hm.names j i hju hi (by rw [hjo, howner, hio]) (by rw [hjid, hid, hiid])
    · intro j hj hju heq
      rcases hz with ⟨hz, -⟩ | ⟨hz, -⟩
      · exact hj (hm.distinct j i hju hi (by rw [heq, hz]))
      · have hlt := hm.below j hju
        omega
    · omega
    · omega

theorem inv_run {m : Wm} (hm : Inv m) (ops : List Op) : Inv (m.run ops) := by
  induction ops generalizing m with
  | nil => exact hm
  | cons op ops ih => exact ih (inv_change hm (Op.apply_change m op))

/-- An operation on a window that is not there changes no window. -/
theorem apply_windows {m : Wm} {op : Op} (hop : op.Names) (hfind : m.find op.owner op.id = none) :
    (op.apply m).windows = m.windows := by
  cases op with
  | create => exact hop.elim
  | raise owner id =>
    have hsame : Wm.find { m with nextZ := m.nextZ + 1 } owner id = none := hfind
    simp only [Op.apply, raise, withWindow, hsame]
  | push owner id cmd =>
    have hnone : m.find owner id = none := hfind
    simp only [Op.apply, push, withWindow, hnone]
  | reset owner id =>
    have hnone : m.find owner id = none := hfind
    simp only [Op.apply, reset, withWindow, hnone]
  | move owner id x y =>
    have hnone : m.find owner id = none := hfind
    simp only [Op.apply, move, withWindow, hnone]

/-! ## Which window a point belongs to -/

/-- Slot `i` holds a window that contains the point. -/
def Holds (m : Wm) (x y : ℕ) (i : Fin MAX_WINDOWS) : Prop :=
  (m.windows i).used ∧ (m.windows i).rect.Contains x y

/-- What the loop of `hit` knows of the slots it has seen. -/
def Best (m : Wm) (x y : ℕ) (seen : List (Fin MAX_WINDOWS)) : Option (Fin MAX_WINDOWS) → Prop
  | none => ∀ i ∈ seen, ¬m.Holds x y i
  | some b => m.Holds x y b ∧ ∀ i ∈ seen, m.Holds x y i → (m.windows i).z ≤ (m.windows b).z

theorem best_better {m : Wm} {x y : ℕ} {seen : List (Fin MAX_WINDOWS)}
    {best : Option (Fin MAX_WINDOWS)} (h : m.Best x y seen best) (i : Fin MAX_WINDOWS) :
    m.Best x y (seen ++ [i]) (m.better x y best i) := by
  rw [better]
  by_cases hskip : ¬(m.windows i).used ∨ ¬(m.windows i).rect.Contains x y
  · rw [if_pos hskip]
    have hnot : ¬m.Holds x y i := fun hi => hskip.elim (· hi.1) (· hi.2)
    have hseen : ∀ j ∈ seen ++ [i], m.Holds x y j → j ∈ seen := by
      intro j hj hholds
      rcases List.mem_append.mp hj with hj | hj
      · exact hj
      · rw [List.mem_singleton.mp hj] at hholds
        exact absurd hholds hnot
    cases best with
    | none => exact fun j hj hholds => h j (hseen j hj hholds) hholds
    | some b => exact ⟨h.1, fun j hj hholds => h.2 j (hseen j hj hholds) hholds⟩
  · rw [if_neg hskip]
    have hi : m.Holds x y i := by simpa [Holds] using hskip
    cases best with
    | none =>
      refine ⟨hi, fun j hj hholds => ?_⟩
      rcases List.mem_append.mp hj with hj | hj
      · exact absurd hholds (h j hj)
      · rw [List.mem_singleton.mp hj]
    | some b =>
      simp only [Option.all_some, decide_eq_true_eq]
      by_cases hlt : (m.windows b).z < (m.windows i).z
      · rw [if_pos hlt]
        refine ⟨hi, fun j hj hholds => ?_⟩
        rcases List.mem_append.mp hj with hj | hj
        · exact (h.2 j hj hholds).trans hlt.le
        · rw [List.mem_singleton.mp hj]
      · rw [if_neg hlt]
        refine ⟨h.1, fun j hj hholds => ?_⟩
        rcases List.mem_append.mp hj with hj | hj
        · exact h.2 j hj hholds
        · rw [List.mem_singleton.mp hj]
          exact not_lt.mp hlt

theorem best_foldl {m : Wm} {x y : ℕ} (rest : List (Fin MAX_WINDOWS))
    {seen : List (Fin MAX_WINDOWS)} {best : Option (Fin MAX_WINDOWS)} (h : m.Best x y seen best) :
    m.Best x y (seen ++ rest) (rest.foldl (m.better x y) best) := by
  induction rest generalizing seen best with
  | nil => simpa using h
  | cons i rest ih => simpa using ih (best_better h i)

theorem best_topmost (m : Wm) (x y : ℕ) :
    m.Best x y (List.finRange MAX_WINDOWS) (m.topmost x y) := by
  have hnone : m.Best x y [] none := by simp [Best]
  simpa [topmost] using best_foldl (List.finRange MAX_WINDOWS) hnone

theorem topmost_eq_none_iff {m : Wm} {x y : ℕ} :
    m.topmost x y = none ↔ ∀ i, ¬m.Holds x y i := by
  have hbest := best_topmost m x y
  cases htop : m.topmost x y with
  | none =>
    rw [htop] at hbest
    simpa [Best] using hbest
  | some b =>
    rw [htop] at hbest
    simpa using ⟨b, hbest.1⟩

/-- `hit` settles on the topmost window that contains the point. -/
theorem topmost_eq_some_iff {m : Wm} (hm : Inv m) {x y : ℕ} {b : Fin MAX_WINDOWS} :
    m.topmost x y = some b ↔
      m.Holds x y b ∧ ∀ i, m.Holds x y i → (m.windows i).z ≤ (m.windows b).z := by
  have hbest := best_topmost m x y
  cases htop : m.topmost x y with
  | none =>
    rw [htop] at hbest
    have hnot : ¬m.Holds x y b := hbest b (List.mem_finRange b)
    simp [hnot]
  | some c =>
    rw [htop] at hbest
    obtain ⟨hc, hmax⟩ := hbest
    constructor
    · intro h
      obtain rfl := Option.some.inj h
      exact ⟨hc, fun i => hmax i (List.mem_finRange i)⟩
    · rintro ⟨hb, hle⟩
      have heq := le_antisymm (hmax b (List.mem_finRange b) hb) (hle c hc)
      rw [hm.distinct b c hb.1 hc.1 heq]

/-! ## The order of painting -/

theorem order_perm (m : Wm) :
    m.order.Perm ((List.finRange MAX_WINDOWS).filter fun i => (m.windows i).used) :=
  insertionSort_perm _

theorem mem_order {m : Wm} {i : Fin MAX_WINDOWS} : i ∈ m.order ↔ (m.windows i).used := by
  rw [(order_perm m).mem_iff]
  simp

theorem order_nodup (m : Wm) : m.order.Nodup :=
  (order_perm m).nodup_iff.mpr ((List.nodup_finRange _).filter _)

/-- `paint` takes the windows bottom to top. -/
theorem order_strict {m : Wm} (hm : Inv m) :
    m.order.Pairwise fun i j => (m.windows i).z < (m.windows j).z := by
  apply insertionSort_strict ((List.nodup_finRange _).filter _)
  intro i hi j hj
  exact hm.distinct i j (by simpa using hi) (by simpa using hj)

/-! ## The stack -/

/-- `hit` returns `r` exactly when `r` is the topmost window that contains the point. -/
theorem hit_eq_some_iff {m : Wm} (hm : Inv m) {x y : ℕ} {r : ℕ × UInt8 × ℕ × ℕ} :
    m.hit x y = some r ↔
      ∃ i, m.Holds x y i ∧ (∀ j, m.Holds x y j → (m.windows j).z ≤ (m.windows i).z) ∧
        r = ((m.windows i).owner, (m.windows i).id, x - (m.windows i).rect.x,
          y - (m.windows i).rect.y) := by
  rw [hit, Option.map_eq_some_iff]
  constructor
  · rintro ⟨i, hi, rfl⟩
    obtain ⟨hholds, hmax⟩ := (topmost_eq_some_iff hm).mp hi
    exact ⟨i, hholds, hmax, rfl⟩
  · rintro ⟨i, hholds, hmax, rfl⟩
    exact ⟨i, (topmost_eq_some_iff hm).mpr ⟨hholds, hmax⟩, rfl⟩

theorem hit_eq_none_iff {m : Wm} {x y : ℕ} : m.hit x y = none ↔ ∀ i, ¬m.Holds x y i := by
  rw [hit, Option.map_eq_none_iff, topmost_eq_none_iff]

/-- What users and applications rely on. -/
structure Stacked (m : Wm) : Prop where
  names : ∀ i j, (m.windows i).used → (m.windows j).used →
    (m.windows i).owner = (m.windows j).owner → (m.windows i).id = (m.windows j).id → i = j
  distinct : ∀ i j, (m.windows i).used → (m.windows j).used →
    (m.windows i).z = (m.windows j).z → i = j
  below : ∀ i, (m.windows i).used → (m.windows i).z < m.nextZ
  /-- a tap goes to the topmost window under it -/
  hit_some : ∀ x y r, m.hit x y = some r ↔
    ∃ i, m.Holds x y i ∧ (∀ j, m.Holds x y j → (m.windows j).z ≤ (m.windows i).z) ∧
      r = ((m.windows i).owner, (m.windows i).id, x - (m.windows i).rect.x,
        y - (m.windows i).rect.y)
  hit_none : ∀ x y, m.hit x y = none ↔ ∀ i, ¬m.Holds x y i
  /-- windows are painted one after the other, each once, bottom to top -/
  paint : m.paint.1 = m.order.flatMap fun i => (m.windows i).draw
  once : m.order.Nodup
  every : ∀ i, i ∈ m.order ↔ (m.windows i).used
  upwards : m.order.Pairwise fun i j => (m.windows i).z < (m.windows j).z
  /-- a name that nobody has reaches no window -/
  strangers : ∀ op : Op, op.Names →
    (∀ i, (m.windows i).used → (m.windows i).owner = op.owner → (m.windows i).id ≠ op.id) →
    (op.apply m).windows = m.windows

/-- After any sequence of operations by any owners. -/
theorem stacking (ops : List Op) : Stacked (new.run ops) := by
  have hinv := inv_run inv_new ops
  exact
    { names := hinv.names
      distinct := hinv.distinct
      below := hinv.below
      hit_some := fun _ _ _ => hit_eq_some_iff hinv
      hit_none := fun _ _ => hit_eq_none_iff
      paint := rfl
      once := order_nodup _
      every := fun _ => mem_order
      upwards := order_strict hinv
      strangers := fun _ hop hnone => apply_windows hop (find_eq_none_iff.mpr hnone) }

end Wm

end JungeyOs.Display
