import JungeyOs.Display.Rect
import JungeyOs.Lib.InsertionSort
import Mathlib.Data.List.FinRange
import Mathlib.Data.UInt
import Mathlib.Logic.Function.Basic

/-!
# The window manager

Model of `user/src/wm.rs`: the table of windows and the operations on it. Counters and
process ids are `usize`; they are natural numbers here. `paint` is the list of calls that
it makes on the `Painter` it is given.

Results:
* `find_eq_some`, `find_eq_none_iff`: what `find` says about the names of the windows.
* `withWindow_change`, `create_change`: what an operation can do (`Change`).
* `dirty_covers`: damage covers what it is told of, and what it covered before.
-/

namespace JungeyOs.Display

open InsertionSort

/-- `MAX_WINDOWS`, `MAX_CMDS`, `MAX_TEXT` and `TITLE_BAR` (lines 25–28). -/
def MAX_WINDOWS : ℕ := 8

def MAX_CMDS : ℕ := 24

def MAX_TEXT : ℕ := 40

def TITLE_BAR : ℕ := 22

/-- The size of `Window::title` (line 93). -/
def MAX_TITLE : ℕ := 24

/-- An array of `n` elements of which a first part is in use. -/
abbrev UpTo (n : ℕ) (α : Type) : Type := {l : List α // l.length ≤ n}

namespace UpTo

variable {n : ℕ} {α : Type}

def empty : UpTo n α := ⟨[], Nat.zero_le n⟩

/-- The first `n` elements of a slice. -/
def take (n : ℕ) (l : List α) : UpTo n α := ⟨l.take n, List.length_take_le n l⟩

/-- One more element, while there is room. -/
def push (l : UpTo n α) (a : α) : UpTo n α :=
  if h : l.val.length < n then ⟨l.val ++ [a], by simpa using Nat.succ_le_of_lt h⟩ else l

end UpTo

/-- `Cmd` (lines 78–83); the bytes are the first `len` of the array. -/
inductive Cmd
  | none
  | fill (x y w h : ℕ) (color : UInt32)
  | text (x y scale : ℕ) (color : UInt32) (bytes : UpTo MAX_TEXT UInt8)
deriving DecidableEq

/-- `Window` (lines 85–97). -/
structure Window where
  used : Bool
  owner : ℕ
  id : UInt8
  rect : Rect
  bg : UInt32
  z : ℕ
  title : UpTo MAX_TITLE UInt8
  cmds : UpTo MAX_CMDS Cmd
deriving DecidableEq

/-- `Window::BLANK` (lines 99–112). -/
def Window.BLANK : Window where
  used := false
  owner := 0
  id := 0
  rect := Rect.EMPTY
  bg := 0
  z := 0
  title := UpTo.empty
  cmds := UpTo.empty

/-- `Wm` (lines 114–125). -/
structure Wm where
  windows : Fin MAX_WINDOWS → Window
  nextZ : ℕ
  damage : Rect
  tapsOnNothing : ℕ
  tapsRouted : ℕ
  rejected : ℕ
  composes : ℕ

/-- A call on the `Painter` (lines 297–302). -/
inductive Draw
  | fill (x y w h : ℕ) (color : UInt32)
  | text (x y scale : ℕ) (color : UInt32) (bytes : List UInt8)
deriving DecidableEq

/-- `shade` (lines 288–295). -/
def shade (c : UInt32) : UInt32 :=
  let f (sh : UInt32) : UInt32 :=
    let v := (c >>> sh) &&& 0xff
    (v + (0xff - v) / 3) <<< sh
  0xff000000 ||| f 0 ||| f 8 ||| f 16

/-- The call for one command of a window (lines 268–281). -/
def Cmd.draw (rect : Rect) : Cmd → List Draw
  | .none => []
  | .fill x y w h color => [.fill (rect.x + x) (rect.y + TITLE_BAR + y) w h color]
  | .text x y scale color bytes => [.text (rect.x + x) (rect.y + TITLE_BAR + y) scale color bytes]

/-- The calls for one window (lines 258–282). -/
def Window.draw (w : Window) : List Draw :=
  .fill w.rect.x w.rect.y w.rect.w w.rect.h w.bg ::
  .fill w.rect.x w.rect.y w.rect.w TITLE_BAR (shade w.bg) ::
  .text (w.rect.x + 6) (w.rect.y + 7) 1 0xffe6edf3 w.title ::
  w.cmds.val.flatMap (Cmd.draw w.rect)

namespace Wm

/-- `Wm::new` (lines 128–138). -/
def new : Wm where
  windows _ := Window.BLANK
  nextZ := 1
  damage := Rect.EMPTY
  tapsOnNothing := 0
  tapsRouted := 0
  rejected := 0
  composes := 0

/-- `Wm::open` (lines 140–142). -/
def openWindows (m : Wm) : ℕ := (List.finRange MAX_WINDOWS).countP fun i => (m.windows i).used

/-- `Wm::dirty` (lines 144–146). -/
def dirty (m : Wm) (r : Rect) : Wm := { m with damage := m.damage.union r.clampToScreen }

/-- `Wm::dirty_all` (lines 148–150). -/
def dirtyAll (m : Wm) : Wm := { m with damage := Rect.screen }

/-- `Wm::find` (lines 152–158). -/
def find (m : Wm) (owner : ℕ) (id : UInt8) : Option (Fin MAX_WINDOWS) :=
  (List.finRange MAX_WINDOWS).find? fun i =>
    (m.windows i).used && (m.windows i).owner == owner && (m.windows i).id == id

/-- The first slot that is not used (line 164). -/
def free (m : Wm) : Option (Fin MAX_WINDOWS) :=
  (List.finRange MAX_WINDOWS).find? fun i => !(m.windows i).used

/-- `Wm::create` (lines 160–181). -/
def create (m : Wm) (owner : ℕ) (id : UInt8) (rect : Rect) (bg : UInt32) (title : List UInt8) :
    Wm × Bool :=
  if (m.find owner id).isSome then (m, false)
  else
    match m.free with
    | none => (m, false)
    | some slot =>
      let w : Window :=
        { Window.BLANK with
          used := true, owner := owner, id := id, rect := rect.clampToScreen, bg := bg,
          z := m.nextZ, title := UpTo.take MAX_TITLE title }
      let m := { m with windows := Function.update m.windows slot w, nextZ := m.nextZ + 1 }
      (m.dirty w.rect, true)

/-- `Wm::with` (lines 183–200). -/
def withWindow (m : Wm) (owner : ℕ) (id : UInt8) (f : Window → Window) : Wm × Bool :=
  match m.find owner id with
  | some i =>
    let before := (m.windows i).rect
    let m := { m with windows := Function.update m.windows i (f (m.windows i)) }
    let after := (m.windows i).rect
    ((m.dirty before).dirty after, true)
  | none => ({ m with rejected := m.rejected + 1 }, false)

/-- `Wm::raise` (lines 202–206); the counter moves on even when there is no such window. -/
def raise (m : Wm) (owner : ℕ) (id : UInt8) : Wm × Bool :=
  let z := m.nextZ
  { m with nextZ := m.nextZ + 1 }.withWindow owner id fun w => { w with z := z }

/-- `Wm::push` (lines 208–215). -/
def push (m : Wm) (owner : ℕ) (id : UInt8) (cmd : Cmd) : Wm × Bool :=
  m.withWindow owner id fun w => { w with cmds := w.cmds.push cmd }

/-- `Wm::reset` (lines 217–219). -/
def reset (m : Wm) (owner : ℕ) (id : UInt8) : Wm × Bool :=
  m.withWindow owner id fun w => { w with cmds := UpTo.empty }

/-- The closure that `OP_WIN_MOVE` passes to `with` (`gpudrv.rs`, lines 680–684). -/
def place (x y : ℕ) (w : Window) : Window :=
  { w with rect := { w.rect with x := x, y := y }.clampToScreen }

/-- `OP_WIN_MOVE` (`gpudrv.rs`, lines 678–686). -/
def move (m : Wm) (owner : ℕ) (id : UInt8) (x y : ℕ) : Wm × Bool :=
  m.withWindow owner id (place x y)

/-- One turn of the loop of `hit` (lines 224–231). -/
def better (m : Wm) (x y : ℕ) (best : Option (Fin MAX_WINDOWS)) (i : Fin MAX_WINDOWS) :
    Option (Fin MAX_WINDOWS) :=
  if ¬(m.windows i).used ∨ ¬(m.windows i).rect.Contains x y then best
  else if best.all fun b => (m.windows b).z < (m.windows i).z then some i
  else best

/-- The window that `hit` settles on. -/
def topmost (m : Wm) (x y : ℕ) : Option (Fin MAX_WINDOWS) :=
  (List.finRange MAX_WINDOWS).foldl (m.better x y) none

/-- `Wm::hit` (lines 221–235). -/
def hit (m : Wm) (x y : ℕ) : Option (ℕ × UInt8 × ℕ × ℕ) :=
  (m.topmost x y).map fun i =>
    ((m.windows i).owner, (m.windows i).id, x - (m.windows i).rect.x, y - (m.windows i).rect.y)

/-- The order in which `paint` takes the windows (lines 239–255). -/
def order (m : Wm) : List (Fin MAX_WINDOWS) :=
  insertionSort (fun i => (m.windows i).z)
    ((List.finRange MAX_WINDOWS).filter fun i => (m.windows i).used)

/-- `Wm::paint` (lines 237–285): the calls on the painter, and the table afterwards. -/
def paint (m : Wm) : List Draw × Wm :=
  (m.order.flatMap fun i => (m.windows i).draw, { m with composes := m.composes + 1 })

/-! ## What an operation can do -/

theorem find_eq_some {m : Wm} {owner : ℕ} {id : UInt8} {i : Fin MAX_WINDOWS}
    (h : m.find owner id = some i) :
    (m.windows i).used ∧ (m.windows i).owner = owner ∧ (m.windows i).id = id := by
  have hp := List.find?_some h
  simpa [and_assoc] using hp

theorem find_eq_none_iff {m : Wm} {owner : ℕ} {id : UInt8} :
    m.find owner id = none ↔
      ∀ i, (m.windows i).used → (m.windows i).owner = owner → (m.windows i).id ≠ id := by
  simp [find]

theorem free_eq_some {m : Wm} {i : Fin MAX_WINDOWS} (h : m.free = some i) :
    (m.windows i).used = false := by
  simpa using List.find?_some h

/-- `m'` covers the damage of `m`, and the screen's part of `r`. -/
def Covers (m m' : Wm) (r : Rect) : Prop :=
  ∀ px py, px < WIDTH → py < HEIGHT → m.damage.Contains px py ∨ r.Contains px py →
    m'.damage.Contains px py

/-- Damage covers what it is told of, and what it covered before. -/
theorem dirty_covers (m : Wm) (r : Rect) : m.Covers (m.dirty r) r := by
  intro px py hx hy h
  apply Rect.contains_union
  rw [Rect.contains_clampToScreen]
  exact h.imp_right fun hr => ⟨hr, hx, hy⟩

/-- What an operation on the window `(owner, id)` can do. -/
inductive Change (m m' : Wm) (owner : ℕ) (id : UInt8) : Prop
  /-- no window changes -/
  | nothing (hwindows : m'.windows = m.windows) (hz : m.nextZ ≤ m'.nextZ)
      (hdamage : m'.damage = m.damage)
  /-- a free slot becomes the window -/
  | opened (i : Fin MAX_WINDOWS) (w : Window) (hfind : m.find owner id = none)
      (hfree : (m.windows i).used = false) (hwindows : m'.windows = Function.update m.windows i w)
      (hused : w.used) (howner : w.owner = owner) (hid : w.id = id) (hz : w.z = m.nextZ)
      (hnext : m'.nextZ = m.nextZ + 1) (hcovers : m.Covers m' w.rect)
  /-- the window changes -/
  | changed (i : Fin MAX_WINDOWS) (w : Window) (hfind : m.find owner id = some i)
      (hwindows : m'.windows = Function.update m.windows i w)
      (hused : w.used) (howner : w.owner = owner) (hid : w.id = id)
      (hz : w.z = (m.windows i).z ∧ m.nextZ ≤ m'.nextZ ∨ w.z = m.nextZ ∧ m'.nextZ = m.nextZ + 1)
      (hbefore : m.Covers m' (m.windows i).rect) (hafter : m.Covers m' w.rect)

theorem create_change (m : Wm) (owner : ℕ) (id : UInt8) (rect : Rect) (bg : UInt32)
    (title : List UInt8) : Change m (m.create owner id rect bg title).1 owner id := by
  rw [create]
  by_cases hfind : (m.find owner id).isSome
  · rw [if_pos hfind]
    exact .nothing rfl le_rfl rfl
  · rw [if_neg hfind]
    cases hfree : m.free with
    | none => exact .nothing rfl le_rfl rfl
    | some slot =>
      have hnone : m.find owner id = none := by simpa using hfind
      apply Change.opened slot _ hnone (free_eq_some hfree) rfl rfl rfl rfl rfl rfl
      exact dirty_covers _ _

/-- What `with` does with the counter at `k`, for a closure that keeps the name of the
window. -/
theorem withWindow_change (m : Wm) (owner : ℕ) (id : UInt8) (k : ℕ) (f : Window → Window)
    (hf : ∀ w, (f w).used = w.used ∧ (f w).owner = w.owner ∧ (f w).id = w.id)
    (hz : (∀ w, (f w).z = w.z) ∧ m.nextZ ≤ k ∨ (∀ w, (f w).z = m.nextZ) ∧ k = m.nextZ + 1) :
    Change m ({ m with nextZ := k }.withWindow owner id f).1 owner id := by
  have hle : m.nextZ ≤ k := by omega
  have hsame : Wm.find { m with nextZ := k } owner id = m.find owner id := rfl
  rw [withWindow, hsame]
  cases hfind : m.find owner id with
  | none => exact .nothing rfl hle rfl
  | some i =>
    obtain ⟨hused, howner, hid⟩ := find_eq_some hfind
    obtain ⟨hused', howner', hid'⟩ := hf (m.windows i)
    apply Change.changed i (f (m.windows i)) hfind rfl
    · rw [hused', hused]
    · rw [howner', howner]
    · rw [hid', hid]
    · exact hz.imp (fun h => ⟨h.1 _, h.2⟩) fun h => ⟨h.1 _, h.2⟩
    · intro px py hx hy h
      apply dirty_covers _ _ px py hx hy
      left
      exact dirty_covers _ _ px py hx hy h
    · intro px py hx hy h
      apply dirty_covers _ _ px py hx hy
      simp only [Function.update_self]
      exact h.imp_left fun hd => dirty_covers _ _ px py hx hy (Or.inl hd)

theorem raise_change (m : Wm) (owner : ℕ) (id : UInt8) :
    Change m (m.raise owner id).1 owner id :=
  m.withWindow_change owner id _ _ (fun _ => ⟨rfl, rfl, rfl⟩) (Or.inr ⟨fun _ => rfl, rfl⟩)

theorem push_change (m : Wm) (owner : ℕ) (id : UInt8) (cmd : Cmd) :
    Change m (m.push owner id cmd).1 owner id :=
  m.withWindow_change owner id _ _ (fun _ => ⟨rfl, rfl, rfl⟩) (Or.inl ⟨fun _ => rfl, le_rfl⟩)

theorem reset_change (m : Wm) (owner : ℕ) (id : UInt8) :
    Change m (m.reset owner id).1 owner id :=
  m.withWindow_change owner id _ _ (fun _ => ⟨rfl, rfl, rfl⟩) (Or.inl ⟨fun _ => rfl, le_rfl⟩)

theorem move_change (m : Wm) (owner : ℕ) (id : UInt8) (x y : ℕ) :
    Change m (m.move owner id x y).1 owner id :=
  m.withWindow_change owner id _ _ (fun _ => ⟨rfl, rfl, rfl⟩) (Or.inl ⟨fun _ => rfl, le_rfl⟩)

end Wm

end JungeyOs.Display
