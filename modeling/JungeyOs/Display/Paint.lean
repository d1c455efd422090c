import JungeyOs.Display.Font
import JungeyOs.Display.Stacking
import JungeyOs.Lib.Painter
import Mathlib.Tactic.Ring

/-!
# Drawing

Model of the drawing functions of `user/src/gpudrv.rs` (lines 388–470). The framebuffer
is an array of words, and pixel `(x, y)` is its word `y * WIDTH + x`; a drawing function
is the list of the words that it writes.

Results:
* `mem_writes`: a call writes exactly the pixels of its tiles that are in the clip.
* `confined_iff`: a window paints inside its rectangle exactly when its tiles, cut to the
  clip, lie there.
* `paint_confined_iff`: so it is for all windows after any operations, and then the last
  window to paint a pixel is the one that a tap there goes to.
-/

namespace JungeyOs.Display

open Painter Font

/-- `CLIP`, which `set_clip` (lines 396–400) keeps on the screen. -/
structure Clip where
  rect : Rect
  right : rect.x + rect.w ≤ WIDTH
  bottom : rect.y + rect.h ≤ HEIGHT

def setClip (r : Rect) : Clip where
  rect := r.clampToScreen
  right := r.clampToScreen_on_screen.1
  bottom := r.clampToScreen_on_screen.2

/-- A word of the framebuffer and the colour that it takes. -/
abbrev Write : Type := ℕ × UInt32

/-- `px` (lines 407–416). -/
def px (clip : Clip) (x y : ℕ) (color : UInt32) : List Write :=
  if ¬clip.rect.Contains x y then [] else [(y * WIDTH + x, color)]

/-- `fill` (lines 418–430). -/
def fill (clip : Clip) (x y w h : ℕ) (color : UInt32) : List Write :=
  let c := clip.rect
  let x0 := max x c.x
  let y0 := max y c.y
  let x1 := min (min (x + w) (c.x + c.w)) WIDTH
  let y1 := min (min (y + h) (c.y + c.h)) HEIGHT
  (List.range' y0 (y1 - y0)).flatMap fun row =>
    (List.range' x0 (x1 - x0)).map fun col => (row * WIDTH + col, color)

/-- The rows of the glyph of `ch`; lowercase is folded, and a character without a glyph
has no rows (lines 435–439). -/
def rows (ch : UInt8) : List UInt8 :=
  let c := if 0x61 ≤ ch ∧ ch ≤ 0x7a then ch - 32 else ch
  if c < FIRST ∨ c > LAST then [] else GLYPHS.getD (c - FIRST).toNat []

/-- `byte & (0x80 >> col) != 0`. -/
def lit (byte : UInt8) (col : ℕ) : Bool := byte &&& (0x80 >>> UInt8.ofNat col) != 0

/-- `glyph` (lines 432–451). -/
def glyph (clip : Clip) (ch : UInt8) (x y scale : ℕ) (color : UInt32) : List Write :=
  (rows ch).zipIdx.flatMap fun (byte, row) =>
    (List.range 8).flatMap fun col =>
      if lit byte col then
        (List.range scale).flatMap fun sy =>
          (List.range scale).flatMap fun sx =>
            px clip (x + col * scale + sx) (y + row * scale + sy) color
      else []

/-- `text` (lines 453–457). -/
def text (clip : Clip) (s : List UInt8) (x y scale : ℕ) (color : UInt32) : List Write :=
  s.zipIdx.flatMap fun (ch, i) => glyph clip ch (x + i * 8 * scale) y scale color

namespace Draw

/-- `Fb` (lines 459–470). -/
def writes (clip : Clip) : Draw → List Write
  | .fill x y w h color => Display.fill clip x y w h color
  | .text x y scale color bytes => Display.text clip bytes x y (max scale 1) color

def color : Draw → UInt32
  | .fill _ _ _ _ color | .text _ _ _ color _ => color

/-! ## Tiles -/

/-- The blocks of a glyph. -/
def glyphTiles (ch : UInt8) (x y scale : ℕ) : List Rect :=
  (rows ch).zipIdx.flatMap fun (byte, row) =>
    ((List.range 8).filter (lit byte)).map fun col =>
      { x := x + col * scale, y := y + row * scale, w := scale, h := scale }

/-- The rectangles that a call covers: the one it fills, or the blocks of its text. -/
def tiles : Draw → List Rect
  | .fill x y w h _ => [{ x := x, y := y, w := w, h := h }]
  | .text x y scale _ bytes =>
    bytes.zipIdx.flatMap fun (ch, i) =>
      glyphTiles ch (x + i * 8 * max scale 1) y (max scale 1)

/-- Some tile contains the point. -/
def Reaches (d : Draw) (x y : ℕ) : Prop := ∃ t ∈ d.tiles, t.Contains x y

instance (d : Draw) (x y : ℕ) : Decidable (d.Reaches x y) :=
  inferInstanceAs (Decidable (∃ t ∈ d.tiles, t.Contains x y))

end Draw

theorem mem_px {clip : Clip} {x y : ℕ} {color : UInt32} {a : ℕ} {c : UInt32} :
    (a, c) ∈ px clip x y color ↔ clip.rect.Contains x y ∧ a = y * WIDTH + x ∧ c = color := by
  rw [px]
  by_cases h : clip.rect.Contains x y <;> simp [h]

theorem mem_fill {clip : Clip} {x y w h : ℕ} {color : UInt32} {a : ℕ} {c : UInt32} :
    (a, c) ∈ fill clip x y w h color ↔
      ∃ px py, ({ x := x, y := y, w := w, h := h } : Rect).Contains px py ∧
        clip.rect.Contains px py ∧ a = py * WIDTH + px ∧ c = color := by
  have hright := clip.right
  have hbottom := clip.bottom
  simp only [fill, List.mem_flatMap, List.mem_map, List.mem_range'_1, Prod.mk.injEq,
    Rect.contains_iff]
  constructor
  · rintro ⟨row, hrow, col, hcol, rfl, rfl⟩
    refine ⟨col, row, ?_, ?_, rfl, rfl⟩ <;> omega
  · rintro ⟨col, row, hin, hclip, rfl, rfl⟩
    refine ⟨row, ?_, col, ?_, rfl, rfl⟩ <;> omega

/-- The blocks of a lit bit are written pixel by pixel. -/
theorem mem_block {clip : Clip} {x y scale : ℕ} {color : UInt32} {a : ℕ} {c : UInt32} :
    (a, c) ∈ ((List.range scale).flatMap fun sy =>
        (List.range scale).flatMap fun sx => px clip (x + sx) (y + sy) color) ↔
      ∃ px py, ({ x := x, y := y, w := scale, h := scale } : Rect).Contains px py ∧
        clip.rect.Contains px py ∧ a = py * WIDTH + px ∧ c = color := by
  simp only [List.mem_flatMap, List.mem_range, mem_px, Rect.contains_iff]
  constructor
  · rintro ⟨sy, hsy, sx, hsx, hclip, rfl, rfl⟩
    refine ⟨x + sx, y + sy, ?_, hclip, rfl, rfl⟩
    omega
  · rintro ⟨px, py, hin, hclip, rfl, rfl⟩
    obtain ⟨sx, rfl⟩ := Nat.exists_eq_add_of_le hin.1
    obtain ⟨sy, rfl⟩ := Nat.exists_eq_add_of_le hin.2.1
    exact ⟨sy, by omega, sx, by omega, hclip, rfl, rfl⟩

theorem mem_glyph {clip : Clip} {ch : UInt8} {x y scale : ℕ} {color : UInt32} {a : ℕ}
    {c : UInt32} :
    (a, c) ∈ glyph clip ch x y scale color ↔
      ∃ t ∈ Draw.glyphTiles ch x y scale, ∃ px py, t.Contains px py ∧
        clip.rect.Contains px py ∧ a = py * WIDTH + px ∧ c = color := by
  rw [glyph, List.mem_flatMap]
  constructor
  · rintro ⟨⟨byte, row⟩, hrow, h⟩
    obtain ⟨col, hcol, h⟩ := List.mem_flatMap.mp h
    by_cases hlit : lit byte col
    · rw [if_pos hlit, mem_block] at h
      refine ⟨_, List.mem_flatMap.mpr ⟨(byte, row), hrow, List.mem_map.mpr ⟨col, ?_, rfl⟩⟩, h⟩
      exact List.mem_filter.mpr ⟨hcol, hlit⟩
    · rw [if_neg hlit] at h
      cases h
  · rintro ⟨t, ht, h⟩
    obtain ⟨⟨byte, row⟩, hrow, ht⟩ := List.mem_flatMap.mp ht
    obtain ⟨col, hcol, rfl⟩ := List.mem_map.mp ht
    obtain ⟨hcol, hlit⟩ := List.mem_filter.mp hcol
    refine ⟨(byte, row), hrow, List.mem_flatMap.mpr ⟨col, hcol, ?_⟩⟩
    rw [if_pos hlit, mem_block]
    exact h

namespace Draw

/-- A call writes exactly the pixels of its tiles that are in the clip. -/
theorem mem_writes {clip : Clip} {d : Draw} {a : ℕ} {c : UInt32} :
    (a, c) ∈ d.writes clip ↔
      ∃ px py, d.Reaches px py ∧ clip.rect.Contains px py ∧ a = py * WIDTH + px ∧
        c = d.color := by
  cases d with
  | fill x y w h color => simp [writes, mem_fill, Reaches, tiles, Draw.color]
  | text x y scale color bytes =>
    simp only [writes, Display.text, List.mem_flatMap, mem_glyph, Reaches, tiles, Draw.color]
    constructor
    · rintro ⟨s, hs, t, ht, px, py, hin, hclip, ha, hc⟩
      exact ⟨px, py, ⟨t, ⟨s, hs, ht⟩, hin⟩, hclip, ha, hc⟩
    · rintro ⟨px, py, ⟨t, ⟨s, hs, ht⟩, hin⟩, hclip, ha, hc⟩
      exact ⟨s, hs, t, ht, px, py, hin, hclip, ha, hc⟩

end Draw

/-! ## Pixels -/

/-- The pixel that a word of the framebuffer holds. -/
theorem pixel_of_word {px : ℕ} (py : ℕ) (h : px < WIDTH) :
    (py * WIDTH + px) % WIDTH = px ∧ (py * WIDTH + px) / WIDTH = py := by
  have hpos : 0 < WIDTH := by decide
  constructor
  · rw [Nat.add_comm, Nat.add_mul_mod_self_right, Nat.mod_eq_of_lt h]
  · rw [Nat.add_comm, Nat.add_mul_div_right _ _ hpos, Nat.div_eq_of_lt h, Nat.zero_add]

theorem word_of_pixel (a : ℕ) : a / WIDTH * WIDTH + a % WIDTH = a :=
  Nat.div_add_mod' a WIDTH

theorem Clip.on_screen {clip : Clip} {px py : ℕ} (h : clip.rect.Contains px py) :
    px < WIDTH ∧ py < HEIGHT := by
  have hright := clip.right
  have hbottom := clip.bottom
  rw [Rect.contains_iff] at h
  omega

/-- What a call leaves in each word. -/
theorem Draw.last_writes (clip : Clip) (d : Draw) (a : ℕ) :
    last (d.writes clip) a =
      if clip.rect.Contains (a % WIDTH) (a / WIDTH) ∧ d.Reaches (a % WIDTH) (a / WIDTH)
      then some d.color else none := by
  by_cases h : clip.rect.Contains (a % WIDTH) (a / WIDTH) ∧ d.Reaches (a % WIDTH) (a / WIDTH)
  · rw [if_pos h]
    have hmem : (a, d.color) ∈ d.writes clip :=
      mem_writes.mpr ⟨_, _, h.2, h.1, (word_of_pixel a).symm, rfl⟩
    have hconst : ∀ w ∈ d.writes clip, w.2 = d.color := by
      intro w hw
      obtain ⟨_, _, _, _, _, hc⟩ := mem_writes.mp hw
      exact hc
    rcases last_const hconst a with hnone | hsome
    · exact absurd hmem (last_eq_none_iff.mp hnone _)
    · exact hsome.1
  · rw [if_neg h, last_eq_none_iff]
    intro c hc
    obtain ⟨px, py, hreach, hclip, rfl, -⟩ := mem_writes.mp hc
    obtain ⟨hx, hy⟩ := pixel_of_word py (Clip.on_screen hclip).1
    rw [hx, hy] at h
    exact h ⟨hclip, hreach⟩

/-! ## Windows -/

/-- The words that painting a window writes. -/
def Window.writes (clip : Clip) (w : Window) : List Write := w.draw.flatMap (Draw.writes clip)

/-- What of `t` is in the clip lies in `r`. -/
def Rect.Within (t clip r : Rect) : Prop :=
  let x0 := max t.x clip.x
  let y0 := max t.y clip.y
  let x1 := min (t.x + t.w) (clip.x + clip.w)
  let y1 := min (t.y + t.h) (clip.y + clip.h)
  x0 < x1 → y0 < y1 → r.x ≤ x0 ∧ x1 ≤ r.x + r.w ∧ r.y ≤ y0 ∧ y1 ≤ r.y + r.h

theorem Rect.within_iff {t clip r : Rect} :
    t.Within clip r ↔ ∀ px py, t.Contains px py → clip.Contains px py → r.Contains px py := by
  simp only [Within, contains_iff]
  constructor
  · intro h px py ht hclip
    have hin := h (by omega) (by omega)
    omega
  · intro h hx hy
    -- the corners of what is left of `t`
    have hfirst := h (max t.x clip.x) (max t.y clip.y) (by omega) (by omega)
    have hlast := h (min (t.x + t.w) (clip.x + clip.w) - 1) (min (t.y + t.h) (clip.y + clip.h) - 1)
      (by omega) (by omega)
    omega

/-- Painting the window writes nothing outside its rectangle. -/
def Window.Confined (clip : Clip) (w : Window) : Prop :=
  ∀ a c, (a, c) ∈ w.writes clip → w.rect.Contains (a % WIDTH) (a / WIDTH)

/-- All tiles of the window, cut to the clip, lie in its rectangle: those of its
background, of its title bar and title, and of its commands. -/
def Window.Fits (clip : Clip) (w : Window) : Prop :=
  ∀ d ∈ w.draw, ∀ t ∈ d.tiles, t.Within clip.rect w.rect

/-- A window paints inside its rectangle exactly when its tiles, cut to the clip, lie
there. -/
theorem confined_iff {clip : Clip} {w : Window} : w.Confined clip ↔ w.Fits clip := by
  constructor
  · intro h d hd t ht
    rw [Rect.within_iff]
    intro px py hin hclip
    have hmem : (py * WIDTH + px, d.color) ∈ w.writes clip :=
      List.mem_flatMap.mpr ⟨d, hd, Draw.mem_writes.mpr ⟨px, py, ⟨t, ht, hin⟩, hclip, rfl, rfl⟩⟩
    obtain ⟨hx, hy⟩ := pixel_of_word py (Clip.on_screen hclip).1
    have hrect := h _ _ hmem
    rwa [hx, hy] at hrect
  · intro h a c hmem
    obtain ⟨d, hd, hmem⟩ := List.mem_flatMap.mp hmem
    obtain ⟨px, py, ⟨t, ht, hin⟩, hclip, rfl, -⟩ := Draw.mem_writes.mp hmem
    obtain ⟨hx, hy⟩ := pixel_of_word py (Clip.on_screen hclip).1
    rw [hx, hy]
    exact Rect.within_iff.mp (h d hd t ht) px py hin hclip

/-- The background of a window covers what of its rectangle is in the clip. -/
theorem isSome_last_writes {clip : Clip} {w : Window} {px py : ℕ} (hw : w.rect.Contains px py)
    (hclip : clip.rect.Contains px py) : (last (w.writes clip) (py * WIDTH + px)).isSome := by
  rw [Option.isSome_iff_ne_none]
  intro hnone
  apply last_eq_none_iff.mp hnone w.bg
  apply List.mem_flatMap.mpr
  refine ⟨_, List.mem_cons_self, Draw.mem_writes.mpr ⟨px, py, ?_, hclip, rfl, rfl⟩⟩
  simpa [Draw.Reaches, Draw.tiles] using hw

namespace Wm

/-- The words that painting all windows writes. -/
def writes (m : Wm) (clip : Clip) : List Write := m.paint.1.flatMap (Draw.writes clip)

theorem writes_eq (m : Wm) (clip : Clip) :
    m.writes clip = m.order.flatMap fun i => (m.windows i).writes clip := by
  rw [writes, paint, List.flatMap_assoc]
  rfl

/-- The last window to paint a word. -/
def painter (m : Wm) (clip : Clip) (a : ℕ) : Option (Fin MAX_WINDOWS) :=
  lastPainter (fun i => (m.windows i).writes clip) m.order a

/-- No window paints outside its rectangle. -/
def Confined (m : Wm) (clip : Clip) : Prop :=
  ∀ i, (m.windows i).used → (m.windows i).Confined clip

/-- Every point of the clip in some window was last painted by the window that `hit`
returns for it. -/
def Seen (m : Wm) (clip : Clip) : Prop :=
  ∀ x y, clip.rect.Contains x y → (∃ i, m.Holds x y i) →
    ∃ i, m.painter clip (y * WIDTH + x) = some i ∧
      m.hit x y = some ((m.windows i).owner, (m.windows i).id, x - (m.windows i).rect.x,
        y - (m.windows i).rect.y)

/-- Every window's tiles, cut to the clip, lie in its rectangle. -/
def Fits (m : Wm) (clip : Clip) : Prop :=
  ∀ i, (m.windows i).used → (m.windows i).Fits clip

/-- Windows that paint inside their rectangles are seen where they are hit. -/
theorem seen_of_confined {m : Wm} (hm : Inv m) {clip : Clip} (h : m.Confined clip) :
    m.Seen clip := by
  intro x y hclip hsome
  obtain ⟨hx, hy⟩ := pixel_of_word y (Clip.on_screen hclip).1
  have hpaints : ∀ i, (m.windows i).used →
      ((last ((m.windows i).writes clip) (y * WIDTH + x)).isSome ↔ m.Holds x y i) := by
    intro i hi
    constructor
    · intro hs
      obtain ⟨c, hc⟩ := Option.isSome_iff_exists.mp hs
      have hin := h i hi _ c (mem_of_last hc)
      rw [hx, hy] at hin
      exact ⟨hi, hin⟩
    · exact fun hholds => isSome_last_writes hholds.2 hclip
  cases hp : m.painter clip (y * WIDTH + x) with
  | none =>
    obtain ⟨i, hi⟩ := hsome
    rw [painter, lastPainter, List.find?_eq_none] at hp
    exact absurd ((hpaints i hi.1).mpr hi) (hp i (List.mem_reverse.mpr (mem_order.mpr hi.1)))
  | some i =>
    refine ⟨i, rfl, ?_⟩
    rw [painter, lastPainter, List.find?_eq_some_iff_append] at hp
    obtain ⟨hi, later, earlier, hsplit, hlater⟩ := hp
    have hmem : ∀ j, j ∈ later ++ i :: earlier ↔ (m.windows j).used := by
      intro j
      rw [← hsplit, List.mem_reverse, mem_order]
    have hdown : (later ++ i :: earlier).Pairwise fun a b => (m.windows b).z < (m.windows a).z := by
      rw [← hsplit]
      exact List.pairwise_reverse.mpr (order_strict hm)
    have hholds := (hpaints i ((hmem i).mp (by simp))).mp hi
    refine (hit_eq_some_iff hm).mpr ⟨i, hholds, fun j hj => ?_, rfl⟩
    -- a window painted later does not contain the point
    rcases List.mem_append.mp ((hmem j).mpr hj.1) with hj' | hj'
    · have hnot := hlater j hj'
      rw [(hpaints j hj.1).mpr hj] at hnot
      cases hnot
    · rcases List.mem_cons.mp hj' with rfl | hj'
      · exact le_rfl
      · have hrest := (List.pairwise_append.mp hdown).2.1
        exact ((List.pairwise_cons.mp hrest).1 j hj').le

/-- After any operations and in any clip, all windows paint inside their rectangles, and are
seen where they are hit, exactly when their tiles, cut to the clip, lie there. -/
theorem paint_confined_iff (ops : List Op) (r : Rect) :
    ((new.run ops).Confined (setClip r) ∧ (new.run ops).Seen (setClip r)) ↔
      (new.run ops).Fits (setClip r) := by
  constructor
  · rintro ⟨h, -⟩ i hi
    exact confined_iff.mp (h i hi)
  · intro h
    have hconf : (new.run ops).Confined (setClip r) := fun i hi => confined_iff.mpr (h i hi)
    exact ⟨hconf, seen_of_confined (inv_run inv_new ops) hconf⟩

/-- A small window of one process on the window of another. -/
def shortWindow : Wm :=
  new.run [.create 7 1 { x := 0, y := 0, w := 480, h := 960 } 0xff000000 [],
    .create 8 1 { x := 100, y := 100, w := 50, h := 10 } 0xffffffff []]

/-- The title bar of the small window covers a pixel of the other, which a tap goes to. -/
theorem shortWindow_overpaints :
    ¬(shortWindow.Confined (setClip { x := 100, y := 115, w := 1, h := 1 }) ∧
      shortWindow.Seen (setClip { x := 100, y := 115, w := 1, h := 1 })) := by
  rintro ⟨-, h⟩
  obtain ⟨i, hi, hhit⟩ := h 100 115 (by decide) ⟨⟨0, by decide⟩, by decide, by decide⟩
  have hpainter : shortWindow.painter (setClip { x := 100, y := 115, w := 1, h := 1 })
      (115 * WIDTH + 100) = some ⟨1, by decide⟩ := by decide
  have htap : shortWindow.hit 100 115 = some (7, 1, 100, 115) := by decide
  rw [hpainter] at hi
  obtain rfl := Option.some.inj hi
  rw [htap] at hhit
  exact absurd hhit (by decide)

end Wm

end JungeyOs.Display
