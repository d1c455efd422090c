import Mathlib.Logic.Function.Basic
import Mathlib.Data.List.Basic

/-!
# Lists linked through their nodes

A list is the address of its first node; each node holds the address of the next one, and
`null` is where the list ends.

Results:
* `Chain.reaches_iff`: the nodes of a list are what its links reach.
* `Chain.pop`, `Chain.push`: taking the first node off, and adding one in front.
* `Chain.update`: a write outside the list changes nothing in it.
* `path_append`, `Path.retarget`, `Path.splice`, `Path.skip`: a list as the nodes on the way from
  one node to another, and how a node is put into it and taken off.
-/

namespace JungeyOs.Linked

variable {α : Type*} {null head x y : α} {next next' : α → α} {nodes : List α}

/-- The list that starts at `head` has these nodes. -/
def Chain (null : α) (next : α → α) : α → List α → Prop
  | head, [] => head = null
  | head, x :: nodes => head = x ∧ x ≠ null ∧ Chain null next (next x) nodes

/-- The links lead from `head` to the node `y`; the list need not end. -/
inductive Reaches (null : α) (next : α → α) : α → α → Prop
  | here {x : α} : x ≠ null → Reaches null next x x
  | later {x y : α} : x ≠ null → Reaches null next (next x) y → Reaches null next x y

/-- The links lead to the nodes of the list and to nothing else. -/
theorem Chain.reaches_iff (h : Chain null next head nodes) :
    Reaches null next head y ↔ y ∈ nodes := by
  constructor
  · intro hy
    induction hy generalizing nodes with
    | here hx =>
      cases nodes with
      | nil => exact absurd h hx
      | cons z nodes => exact h.1 ▸ List.mem_cons_self
    | later hx _ ih =>
      cases nodes with
      | nil => exact absurd h hx
      | cons z nodes =>
        obtain ⟨rfl, -, h⟩ := h
        exact List.mem_cons_of_mem _ (ih h)
  · intro hy
    induction nodes generalizing head with
    | nil => cases hy
    | cons z nodes ih =>
      obtain ⟨rfl, hz, h⟩ := h
      rcases List.mem_cons.mp hy with rfl | hy
      · exact .here hz
      · exact .later hz (ih h hy)

theorem Chain.congr (h : Chain null next head nodes) (hnext : ∀ x ∈ nodes, next' x = next x) :
    Chain null next' head nodes := by
  induction nodes generalizing head with
  | nil => exact h
  | cons z nodes ih =>
    obtain ⟨rfl, hz, h⟩ := h
    refine ⟨rfl, hz, ?_⟩
    rw [hnext _ List.mem_cons_self]
    exact ih h fun x hx => hnext x (List.mem_cons_of_mem _ hx)

/-- A write to the link of something that is not in the list. -/
theorem Chain.update [DecidableEq α] (h : Chain null next head nodes) (hx : x ∉ nodes) (y : α) :
    Chain null (Function.update next x y) head nodes :=
  h.congr fun _ hz => Function.update_of_ne (ne_of_mem_of_not_mem hz hx) _ _

/-- The first node is taken off. -/
theorem Chain.pop (h : Chain null next head nodes) (hhead : head ≠ null) :
    ∃ rest, nodes = head :: rest ∧ Chain null next (next head) rest := by
  cases nodes with
  | nil => exact absurd h hhead
  | cons z nodes =>
    obtain ⟨rfl, -, h⟩ := h
    exact ⟨nodes, rfl, h⟩

/-- A node that holds the address of the list is added in front. -/
theorem Chain.push (h : Chain null next head nodes) (hx : x ≠ null) (hlink : next x = head) :
    Chain null next x (x :: nodes) :=
  ⟨rfl, hx, hlink.symm ▸ h⟩

/-! ## Paths -/

/-- The links lead from `x` over these nodes to `y`. A list with its head stored at the link of
`null` is a path from `null` to `null`. -/
def Path (next : α → α) : α → List α → α → Prop
  | x, [], y => next x = y
  | x, z :: nodes, y => next x = z ∧ Path next z nodes y

theorem path_append {z : α} {rest : List α} :
    Path next x (nodes ++ z :: rest) y ↔ Path next x nodes z ∧ Path next z rest y := by
  induction nodes generalizing x with
  | nil => exact Iff.rfl
  | cons w nodes ih =>
    show next x = w ∧ Path next w (nodes ++ z :: rest) y ↔ (next x = w ∧ Path next w nodes z) ∧ _
    rw [ih, and_assoc]

theorem Path.congr (h : Path next x nodes y) (hnext : ∀ z ∈ x :: nodes, next' z = next z) :
    Path next' x nodes y := by
  induction nodes generalizing x with
  | nil => exact (hnext x List.mem_cons_self).trans h
  | cons w nodes ih =>
    exact ⟨(hnext x List.mem_cons_self).trans h.1, ih h.2 fun z hz => hnext z (.tail _ hz)⟩

/-- The node in front of the end of a path. -/
def last : α → List α → α
  | x, [] => x
  | _, z :: nodes => last z nodes

theorem last_mem (x : α) (nodes : List α) : last x nodes ∈ x :: nodes := by
  induction nodes generalizing x with
  | nil => exact List.mem_cons_self
  | cons z nodes ih => exact .tail _ (ih z)

theorem last_concat (x z : α) (nodes : List α) : last x (nodes ++ [z]) = z := by
  induction nodes generalizing x with
  | nil => rfl
  | cons w nodes ih => exact ih w

/-- The last link of a path leads to its end. -/
theorem Path.next_last (h : Path next x nodes y) : next (last x nodes) = y := by
  induction nodes generalizing x with
  | nil => exact h
  | cons z nodes ih => exact ih h.2

section

variable [DecidableEq α]

/-- The last link of a path is made to lead elsewhere. -/
theorem Path.retarget (h : Path next x nodes y) (hnodup : (x :: nodes).Nodup) (z : α) :
    Path (Function.update next (last x nodes) z) x nodes z := by
  induction nodes generalizing x with
  | nil => exact Function.update_self ..
  | cons w nodes ih =>
    obtain ⟨hx, hnodup⟩ := List.nodup_cons.mp hnodup
    have hne : x ≠ last w nodes := fun heq => hx (heq ▸ last_mem w nodes)
    refine ⟨?_, ih h.2 hnodup⟩
    rw [last, Function.update_of_ne hne]
    exact h.1

/-- A node is put into a list between two nodes. -/
theorem Path.splice {rest : List α} {z : α} (h : Path next x (nodes ++ rest) y)
    (hz : Path next z rest y) (hnodup : (x :: (nodes ++ rest)).Nodup)
    (hnew : z ∉ x :: (nodes ++ rest)) :
    Path (Function.update next (last x nodes) z) x (nodes ++ z :: rest) y := by
  rw [← List.cons_append] at hnodup hnew
  obtain ⟨hfront, -, hapart⟩ := List.nodup_append.mp hnodup
  have hlast := last_mem x nodes
  obtain ⟨w, hw⟩ : ∃ w, Path next x nodes w := by
    cases rest with
    | nil => exact ⟨y, by rwa [List.append_nil] at h⟩
    | cons w rest => exact ⟨w, (path_append.mp h).1⟩
  refine path_append.mpr ⟨hw.retarget hfront z, hz.congr fun v hv => Function.update_of_ne ?_ _ _⟩
  rintro rfl
  rcases List.mem_cons.mp hv with heq | hv
  · exact hnew (heq ▸ List.mem_append_left _ hlast)
  · exact hapart _ hlast _ hv rfl

/-- A node is taken off a list. -/
theorem Path.skip {rest : List α} {z : α} (h : Path next x (nodes ++ z :: rest) y)
    (hnodup : (x :: (nodes ++ z :: rest)).Nodup) :
    Path (Function.update next (last x nodes) (next z)) x (nodes ++ rest) y := by
  rw [← List.cons_append] at hnodup
  obtain ⟨hfront, -, hapart⟩ := List.nodup_append.mp hnodup
  obtain ⟨hto, hfrom⟩ := path_append.mp h
  have hturn := hto.retarget hfront (next z)
  cases rest with
  | nil =>
    rw [List.append_nil, ← show next z = y from hfrom]
    exact hturn
  | cons w rest =>
    refine path_append.mpr ⟨hfrom.1 ▸ hturn, hfrom.2.congr fun v hv => Function.update_of_ne ?_ _ _⟩
    exact fun heq => hapart _ (last_mem x nodes) v (.tail _ hv) heq.symm

end

end JungeyOs.Linked
