import Mathlib.Order.Basic
import Mathlib.Tactic.SplitIfs

/-!
# Rectangles on the screen

Model of `Rect` in `user/src/wm.rs` (lines 30–76). Coordinates are `usize`, and are
sums of 16-bit numbers or the sizes of texts; they are natural numbers here.

Results:
* `contains_clampToScreen`: clamping keeps exactly the points of the screen.
* `contains_union`: the union covers both rectangles.
-/

namespace JungeyOs.Display

/-- `WIDTH` (`gpudrv.rs`, line 44). -/
def WIDTH : ℕ := 480

/-- `HEIGHT` (`gpudrv.rs`, line 45). -/
def HEIGHT : ℕ := 960

structure Rect where
  x : ℕ
  y : ℕ
  w : ℕ
  h : ℕ
deriving DecidableEq, Repr

namespace Rect

def EMPTY : Rect := { x := 0, y := 0, w := 0, h := 0 }

/-- The whole screen. -/
def screen : Rect := { x := 0, y := 0, w := WIDTH, h := HEIGHT }

/-- `Rect::contains` (lines 41–43). -/
def Contains (r : Rect) (px py : ℕ) : Prop :=
  r.w ≠ 0 ∧ r.x ≤ px ∧ r.y ≤ py ∧ px < r.x + r.w ∧ py < r.y + r.h

instance (r : Rect) (px py : ℕ) : Decidable (r.Contains px py) :=
  inferInstanceAs (Decidable (_ ∧ _))

/-- `Rect::area` (lines 45–47). -/
def area (r : Rect) : ℕ := r.w * r.h

/-- `Rect::union` (lines 49–64). -/
def union (r o : Rect) : Rect :=
  if r.w = 0 then o
  else if o.w = 0 then r
  else
    let x0 := min r.x o.x
    let y0 := min r.y o.y
    let x1 := max (r.x + r.w) (o.x + o.w)
    let y1 := max (r.y + r.h) (o.y + o.h)
    { x := x0, y := y0, w := x1 - x0, h := y1 - y0 }

/-- `Rect::clamp_to_screen` (lines 66–75). -/
def clampToScreen (r : Rect) : Rect :=
  let x := min r.x WIDTH
  let y := min r.y HEIGHT
  { x := x, y := y, w := min (r.x + r.w) WIDTH - x, h := min (r.y + r.h) HEIGHT - y }

theorem contains_iff (r : Rect) (px py : ℕ) :
    r.Contains px py ↔ r.x ≤ px ∧ r.y ≤ py ∧ px < r.x + r.w ∧ py < r.y + r.h := by
  rw [Contains]
  omega

theorem contains_screen (px py : ℕ) : screen.Contains px py ↔ px < WIDTH ∧ py < HEIGHT := by
  simp [contains_iff, screen]

/-- Clamping keeps exactly the points of the screen. -/
theorem contains_clampToScreen (r : Rect) (px py : ℕ) :
    r.clampToScreen.Contains px py ↔ r.Contains px py ∧ px < WIDTH ∧ py < HEIGHT := by
  simp only [contains_iff, clampToScreen]
  omega

theorem clampToScreen_on_screen (r : Rect) :
    r.clampToScreen.x + r.clampToScreen.w ≤ WIDTH ∧
      r.clampToScreen.y + r.clampToScreen.h ≤ HEIGHT := by
  simp only [clampToScreen]
  omega

/-- The union covers both rectangles. -/
theorem contains_union {r o : Rect} {px py : ℕ} (h : r.Contains px py ∨ o.Contains px py) :
    (r.union o).Contains px py := by
  rw [union]
  split_ifs with hr ho
  · apply h.resolve_left
    intro hc
    exact hc.1 hr
  · apply h.resolve_right
    intro hc
    exact hc.1 ho
  · simp only [contains_iff] at h ⊢
    omega

end Rect

end JungeyOs.Display
