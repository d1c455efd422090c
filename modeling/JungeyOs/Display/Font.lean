import Mathlib.Data.UInt
import Mathlib.Data.List.Basic

/-!
# The font

The table of `user/src/font.rs`: one byte per row of a glyph, most significant bit
leftmost.

Result:
* `length_glyphs`, `length_row`: the table has a glyph of eight rows for every character
  from `FIRST` to `LAST`.
-/

namespace JungeyOs.Display.Font

/-- `FIRST` (line 8). -/
def FIRST : UInt8 := 0x20

/-- `LAST` (line 10). -/
def LAST : UInt8 := 0x5F

/-- `GLYPHS` (lines 13–78). -/
def GLYPHS : List (List UInt8) :=
  [[0x00, 0x00, 0x00, 0x00, 0x00, 0x00, 0x00, 0x00],
   [0x30, 0x30, 0x30, 0x30, 0x30, 0x00, 0x30, 0x00],
   [0x6c, 0x6c, 0x00, 0x00, 0x00, 0x00, 0x00, 0x00],
   [0x6c, 0x6c, 0xfe, 0x6c, 0xfe, 0x6c, 0x6c, 0x00],
   [0x00, 0x00, 0x00, 0x00, 0x00, 0x00, 0x00, 0x00],
   [0xc4, 0xc8, 0x10, 0x20, 0x40, 0x8c, 0x8c, 0x00],
   [0x00, 0x00, 0x00, 0x00, 0x00, 0x00, 0x00, 0x00],
   [0x30, 0x30, 0x00, 0x00, 0x00, 0x00, 0x00, 0x00],
   [0x18, 0x30, 0x60, 0x60, 0x60, 0x30, 0x18, 0x00],
   [0x30, 0x18, 0x0c, 0x0c, 0x0c, 0x18, 0x30, 0x00],
   [0x00, 0x92, 0x54, 0x38, 0x54, 0x92, 0x00, 0x00],
   [0x00, 0x30, 0x30, 0xfc, 0x30, 0x30, 0x00, 0x00],
   [0x00, 0x00, 0x00, 0x00, 0x00, 0x30, 0x30, 0x60],
   [0x00, 0x00, 0x00, 0xfc, 0x00, 0x00, 0x00, 0x00],
   [0x00, 0x00, 0x00, 0x00, 0x00, 0x30, 0x30, 0x00],
   [0x06, 0x0c, 0x18, 0x30, 0x60, 0xc0, 0x00, 0x00],
   [0x78, 0xcc, 0xdc, 0xf8, 0xec, 0xcc, 0x78, 0x00],
   [0x30, 0x70, 0x30, 0x30, 0x30, 0x30, 0xfc, 0x00],
   [0x78, 0xcc, 0x0c, 0x18, 0x30, 0x60, 0xfc, 0x00],
   [0x78, 0xcc, 0x0c, 0x38, 0x0c, 0xcc, 0x78, 0x00],
   [0x1c, 0x3c, 0x6c, 0xcc, 0xfe, 0x0c, 0x1e, 0x00],
   [0xfc, 0xc0, 0xf8, 0x0c, 0x0c, 0xcc, 0x78, 0x00],
   [0x38, 0x60, 0xc0, 0xf8, 0xcc, 0xcc, 0x78, 0x00],
   [0xfc, 0xcc, 0x0c, 0x18, 0x30, 0x30, 0x30, 0x00],
   [0x78, 0xcc, 0xcc, 0x78, 0xcc, 0xcc, 0x78, 0x00],
   [0x78, 0xcc, 0xcc, 0x7c, 0x0c, 0x60, 0xf0, 0x00],
   [0x00, 0x30, 0x30, 0x00, 0x00, 0x30, 0x30, 0x00],
   [0x00, 0x30, 0x30, 0x00, 0x00, 0x30, 0x30, 0x60],
   [0x0c, 0x18, 0x30, 0x60, 0x30, 0x18, 0x0c, 0x00],
   [0x00, 0x00, 0xfc, 0x00, 0xfc, 0x00, 0x00, 0x00],
   [0x60, 0x30, 0x18, 0x0c, 0x18, 0x30, 0x60, 0x00],
   [0x78, 0xcc, 0x0c, 0x18, 0x30, 0x00, 0x30, 0x00],
   [0x78, 0xcc, 0xdc, 0xdc, 0xc0, 0xc0, 0x78, 0x00],
   [0x30, 0x78, 0xcc, 0xcc, 0xfc, 0xcc, 0xcc, 0x00],
   [0xf8, 0xcc, 0xcc, 0xf8, 0xcc, 0xcc, 0xf8, 0x00],
   [0x78, 0xcc, 0xc0, 0xc0, 0xc0, 0xcc, 0x78, 0x00],
   [0xf0, 0xd8, 0xcc, 0xcc, 0xcc, 0xd8, 0xf0, 0x00],
   [0xfc, 0xc0, 0xc0, 0xf8, 0xc0, 0xc0, 0xfc, 0x00],
   [0xfc, 0xc0, 0xc0, 0xf8, 0xc0, 0xc0, 0xc0, 0x00],
   [0x78, 0xcc, 0xc0, 0xdc, 0xcc, 0xcc, 0x78, 0x00],
   [0xcc, 0xcc, 0xcc, 0xfc, 0xcc, 0xcc, 0xcc, 0x00],
   [0xfc, 0x30, 0x30, 0x30, 0x30, 0x30, 0xfc, 0x00],
   [0x3e, 0x0c, 0x0c, 0x0c, 0xcc, 0xcc, 0x78, 0x00],
   [0xcc, 0xd8, 0xf0, 0xe0, 0xf0, 0xd8, 0xcc, 0x00],
   [0xc0, 0xc0, 0xc0, 0xc0, 0xc0, 0xc0, 0xfc, 0x00],
   [0xc6, 0xee, 0xfe, 0xfe, 0xd6, 0xc6, 0xc6, 0x00],
   [0xcc, 0xec, 0xfc, 0xfc, 0xdc, 0xce, 0xcc, 0x00],
   [0x78, 0xcc, 0xcc, 0xcc, 0xcc, 0xcc, 0x78, 0x00],
   [0xf8, 0xcc, 0xcc, 0xf8, 0xc0, 0xc0, 0xc0, 0x00],
   [0x78, 0xcc, 0xcc, 0xcc, 0xdc, 0xd8, 0x6c, 0x00],
   [0xf8, 0xcc, 0xcc, 0xf8, 0xf0, 0xd8, 0xcc, 0x00],
   [0x78, 0xcc, 0xe0, 0x78, 0x0e, 0xcc, 0x78, 0x00],
   [0xfc, 0x30, 0x30, 0x30, 0x30, 0x30, 0x30, 0x00],
   [0xcc, 0xcc, 0xcc, 0xcc, 0xcc, 0xcc, 0x78, 0x00],
   [0xcc, 0xcc, 0xcc, 0xcc, 0xcc, 0x78, 0x30, 0x00],
   [0xc6, 0xc6, 0xd6, 0xfe, 0xfe, 0xee, 0xc6, 0x00],
   [0xcc, 0xcc, 0x78, 0x30, 0x78, 0xcc, 0xcc, 0x00],
   [0xcc, 0xcc, 0xcc, 0x78, 0x30, 0x30, 0x30, 0x00],
   [0xfc, 0x0c, 0x18, 0x30, 0x60, 0xc0, 0xfc, 0x00],
   [0x3c, 0x30, 0x30, 0x30, 0x30, 0x30, 0x3c, 0x00],
   [0x00, 0x00, 0x00, 0x00, 0x00, 0x00, 0x00, 0x00],
   [0x3c, 0x0c, 0x0c, 0x0c, 0x0c, 0x0c, 0x3c, 0x00],
   [0x00, 0x00, 0x00, 0x00, 0x00, 0x00, 0x00, 0x00],
   [0x00, 0x00, 0x00, 0x00, 0x00, 0x00, 0x00, 0xff]]

theorem length_glyphs : GLYPHS.length = (LAST - FIRST + 1).toNat := by decide

/-- Every glyph has eight rows. -/
theorem length_row : ∀ bits ∈ GLYPHS, bits.length = 8 := by decide

end JungeyOs.Display.Font
