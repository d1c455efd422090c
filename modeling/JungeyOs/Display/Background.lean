import JungeyOs.Display.Messages
import Mathlib.Data.List.GetD

/-!
# The retained background

The receive loop copies background commands into `ROOT` and damages what they cover;
`root_paint` decodes them again from there (`user/src/gpudrv.rs`, lines 508–544 and
615–643). The two decoders agree.

Results:
* `rootPaint_of_encodes`: a list of whole commands is replayed call by call.
* `request_clear`, `request_draw`: what the receive loop retains is a whole command, and
  the call that it encodes stays within the damage.
-/

namespace JungeyOs.Display

open Reads Bytes

/-! ## Whole commands -/

/-- `bytes` is one whole command, for the call `d`. -/
def Encodes (bytes : List UInt8) (d : Draw) : Prop :=
  ∀ more, rootCommand (bytes ++ more) = some (d, more)

/-- `bytes` is a sequence of whole commands, for the calls `ds`. -/
inductive EncodesAll : List UInt8 → List Draw → Prop
  | nil : EncodesAll [] []
  | cons {b bs : List UInt8} {d : Draw} {ds : List Draw} :
      Encodes b d → EncodesAll bs ds → EncodesAll (b ++ bs) (d :: ds)

theorem Encodes.ne_nil {b : List UInt8} {d : Draw} (h : Encodes b d) : b ≠ [] := by
  rintro rfl
  have hnone := h []
  cases hnone

theorem Encodes.all {b : List UInt8} {d : Draw} (h : Encodes b d) : EncodesAll b [d] := by
  simpa using EncodesAll.cons h .nil

theorem EncodesAll.append {bs bs' : List UInt8} {ds ds' : List Draw} (h : EncodesAll bs ds)
    (h' : EncodesAll bs' ds') : EncodesAll (bs ++ bs') (ds ++ ds') := by
  induction h with
  | nil => exact h'
  | cons hb _ ih =>
    rw [List.append_assoc]
    exact .cons hb ih

theorem EncodesAll.length_le {bs : List UInt8} {ds : List Draw} (h : EncodesAll bs ds) :
    ds.length ≤ bs.length := by
  induction h with
  | nil => exact le_rfl
  | cons hb _ ih =>
    have hpos := List.length_pos_of_ne_nil hb.ne_nil
    simp only [List.length_cons, List.length_append]
    omega

/-- A list of whole commands is replayed call by call. -/
theorem rootPaint_of_encodes {bs : List UInt8} {ds : List Draw} (h : EncodesAll bs ds) :
    rootPaint bs = ds := by
  have hdraws : ∀ fuel, ds.length ≤ fuel → rootDraws fuel bs = ds := by
    induction h with
    | nil =>
      intro fuel _
      cases fuel <;> rfl
    | cons hb _ ih =>
      intro fuel hfuel
      obtain ⟨fuel, rfl⟩ : ∃ f, fuel = f + 1 := ⟨fuel - 1, by simp at hfuel; omega⟩
      rw [rootDraws, hb]
      simp only
      rw [ih fuel (by simpa using hfuel)]
  exact hdraws _ h.length_le

/-! ## The three commands -/

section

variable {b more : List UInt8}

theorem be16_append (h : 2 ≤ b.length) : be16 (b ++ more) = be16 b := by
  match b, h with
  | x :: y :: b, _ => rfl

theorem le32_append (h : 4 ≤ b.length) : le32 (b ++ more) = le32 b := by
  rw [le32, le32, List.take_append_of_le_length h]

theorem be16_drop_append {k : ℕ} (h : k + 2 ≤ b.length) :
    be16 ((b ++ more).drop k) = be16 (b.drop k) := by
  rw [List.drop_append_of_le_length (by omega), be16_append (by rw [List.length_drop]; omega)]

theorem le32_drop_append {k : ℕ} (h : k + 4 ≤ b.length) :
    le32 ((b ++ more).drop k) = le32 (b.drop k) := by
  rw [List.drop_append_of_le_length (by omega), le32_append (by rw [List.length_drop]; omega)]

theorem getD_append {k : ℕ} (h : k < b.length) : (b ++ more).getD k 0 = b.getD k 0 := by
  rw [List.getD_append _ _ _ _ h]

end

theorem encodes_clear {b : List UInt8} (h : b.length = 4) :
    Encodes (OP_CLEAR :: b) (.fill 0 0 WIDTH HEIGHT (le32 b)) := by
  intro more
  have hcolor : le32 (b ++ more) = le32 b := le32_append h.ge
  simp [rootCommand, hcolor, ← h]

theorem encodes_rect {b : List UInt8} (h : b.length = 12) :
    Encodes (OP_RECT :: b)
      (.fill (be16 b) (be16 (b.drop 2)) (be16 (b.drop 4)) (be16 (b.drop 6)) (le32 (b.drop 8))) := by
  intro more
  have hne : OP_RECT ≠ OP_CLEAR := by decide
  have hrest : (b ++ more).drop 12 = more := by rw [← h, List.drop_left]
  simp only [List.cons_append, rootCommand, if_neg hne, if_true, List.drop_succ_cons, List.drop_zero]
  rw [be16_append (by omega), be16_drop_append (by omega), be16_drop_append (by omega),
    be16_drop_append (by omega), le32_drop_append (by omega), hrest]

theorem encodes_text {b : List UInt8} (str : List UInt8) (h : b.length = 10) (hn : (b.getD 9 0).toNat = str.length) :
    Encodes (OP_TEXT :: (b ++ str))
      (.text (be16 b) (be16 (b.drop 2)) (max (b.getD 8 0).toNat 1) (le32 (b.drop 4)) str) := by
  intro more
  have hclear : OP_TEXT ≠ OP_CLEAR := by decide
  have hrect : OP_TEXT ≠ OP_RECT := by decide
  have hlen : (b ++ (str ++ more)).getD 9 0 = b.getD 9 0 := getD_append (by omega)
  have hscale : (b ++ (str ++ more)).getD 8 0 = b.getD 8 0 := getD_append (by omega)
  have hafter : (b ++ (str ++ more)).drop 10 = str ++ more := by rw [← h, List.drop_left]
  have hrest : (b ++ (str ++ more)).drop (10 + str.length) = more := by
    rw [← List.drop_drop, hafter, List.drop_left]
  have hstep : 11 + str.length = 10 + str.length + 1 := by omega
  simp only [List.cons_append, List.append_assoc, rootCommand, if_neg hclear, if_neg hrect, if_true,
    List.drop_succ_cons, List.drop_zero, List.getD_cons_succ, hlen, hscale, hn, hafter, hstep, hrest]
  rw [be16_append (by omega), be16_drop_append (by omega), le32_drop_append (by omega), List.take_left]

/-! ## How far a text reaches -/

theorem length_rows_le (ch : UInt8) : (rows ch).length ≤ 8 := by
  have hglyph : ∀ k, (Font.GLYPHS.getD k []).length ≤ 8 := by
    intro k
    rw [List.getD_eq_getElem?_getD]
    cases hget : Font.GLYPHS[k]? with
    | none => exact Nat.zero_le _
    | some bits => exact (Font.length_row bits (List.mem_of_getElem? hget)).le
  rw [rows]
  split_ifs
  · exact Nat.zero_le _
  · exact hglyph _
  · exact Nat.zero_le _
  · exact hglyph _

/-- Every letter stays in its cell. -/
theorem glyphTiles_within {ch : UInt8} {x y scale px py : ℕ} {t : Rect}
    (ht : t ∈ Draw.glyphTiles ch x y scale) (hp : t.Contains px py) :
    x ≤ px ∧ px < x + 8 * scale ∧ y ≤ py ∧ py < y + 8 * scale := by
  obtain ⟨⟨byte, row⟩, hrow, ht⟩ := List.mem_flatMap.mp ht
  obtain ⟨col, hcol, rfl⟩ := List.mem_map.mp ht
  have hcol := List.mem_range.mp (List.mem_filter.mp hcol).1
  have hrow : row < 8 := (List.snd_lt_of_mem_zipIdx hrow).trans_le (length_rows_le ch)
  rw [Rect.contains_iff] at hp
  have hx : (col + 1) * scale ≤ 8 * scale := Nat.mul_le_mul_right _ hcol
  have hy : (row + 1) * scale ≤ 8 * scale := Nat.mul_le_mul_right _ hrow
  rw [Nat.add_mul, Nat.one_mul] at hx hy
  simp only at hp
  omega

/-- A text stays in the rectangle that the receive loop damages for it. -/
theorem text_within {x y scale px py : ℕ} {color : UInt32} {str : List UInt8}
    (h : (Draw.text x y scale color str).Reaches px py) :
    ({ x := x, y := y, w := str.length * 8 * max scale 1, h := 8 * max scale 1 } : Rect).Contains
      px py := by
  obtain ⟨t, ht, hp⟩ := h
  obtain ⟨⟨ch, i⟩, hi, ht⟩ := List.mem_flatMap.mp ht
  have hlt : i < str.length := List.snd_lt_of_mem_zipIdx hi
  have hcell := glyphTiles_within ht hp
  have hnext : (i + 1) * (8 * max scale 1) ≤ str.length * (8 * max scale 1) :=
    Nat.mul_le_mul_right _ hlt
  rw [Nat.add_mul, Nat.one_mul, ← Nat.mul_assoc, ← Nat.mul_assoc] at hnext
  rw [Rect.contains_iff]
  simp only
  omega

/-! ## What the receive loop retains -/

namespace Server

variable {s : Server} {sender i len : ℕ} {buf : List UInt8}

/-- The bytes of the slice that `root_append` takes. -/
def kept (s : Server) (buf : List UInt8) (i len : ℕ) : List UInt8 :=
  if s.Keeps len then (buf.drop i).take len else []

theorem run_retained (h : i + len ≤ buf.length) :
    ((s.retained i len).run buf).2 = some (s.kept buf i len) := by
  rw [retained, run_bind, run_upTo, if_pos h, Option.bind_some, kept]
  by_cases hk : s.Keeps len
  · rw [if_pos hk, if_pos hk, run_slice h]
  · rw [if_neg hk, if_neg hk, run_pure]

theorem run_clear (h : i + 5 ≤ buf.length) :
    ((s.parse sender i .clear).run buf).2 = some (.clear ((buf.drop i).take 5), 5) := by
  rw [parse, run_bind, run_upTo, if_pos h, Option.bind_some, run_bind, run_slice h,
    Option.bind_some, run_pure]

theorem run_rect (h : i + 13 ≤ buf.length) :
    ((s.parse sender i .rect).run buf).2 =
      some (.draw (s.kept buf i 13)
        { x := be16 (buf.drop (i + 1)), y := be16 (buf.drop (i + 3)), w := be16 (buf.drop (i + 5)),
          h := be16 (buf.drop (i + 7)) }, 13) := by
  rw [parse, run_bind, run_retained h, Option.bind_some, run_bind, run_rectAt (by omega),
    Option.bind_some, run_pure]

theorem run_text (s : Server) (sender : ℕ) {n scale : UInt8} (hn : buf[i + 10]? = some n) (hscale : buf[i + 9]? = some scale)
    (h : i + (11 + n.toNat) ≤ buf.length) :
    ((s.parse sender i .text).run buf).2 =
      some (.draw (s.kept buf i (11 + n.toNat))
        { x := be16 (buf.drop (i + 1)), y := be16 (buf.drop (i + 3)),
          w := n.toNat * 8 * (max scale 1).toNat, h := 8 * (max scale 1).toNat }, 11 + n.toNat) := by
  rw [parse, run_bind, run_byte, hn, Option.bind_some, run_bind, run_retained h,
    Option.bind_some, run_bind, run_byte, hscale, Option.bind_some, run_bind,
    run_be16At (by omega), Option.bind_some, run_bind, run_be16At (by omega), Option.bind_some,
    run_pure]

/-- A slice that is handed to `root_append` is within the buffer. -/
theorem bound_of_retained {f : List UInt8 → Reads UInt8 (Request × ℕ)} {r : Request × ℕ}
    (h : ((s.retained i len >>= f).run buf).2 = some r) : i + len ≤ buf.length := by
  by_contra hlt
  rw [run_bind, retained, run_bind, run_upTo, if_neg hlt] at h
  cases h

theorem drop_eq_cons {op : UInt8} (h : buf[i]? = some op) : buf.drop i = op :: buf.drop (i + 1) := by
  obtain ⟨hlt, rfl⟩ := List.getElem?_eq_some_iff.mp h
  exact List.drop_eq_getElem_cons hlt

theorem toNat_max_one (scale : UInt8) : (max scale 1).toNat = max scale.toNat 1 := by
  have hone : (1 : UInt8).toNat = 1 := rfl
  have hmax : max scale 1 = if scale ≤ 1 then 1 else scale := rfl
  rw [hmax]
  by_cases h : scale ≤ 1
  · rw [if_pos h, hone]
    rw [UInt8.le_iff_toNat_le, hone] at h
    omega
  · rw [if_neg h]
    rw [UInt8.le_iff_toNat_le, hone] at h
    omega

/-- A retained `CLEAR` is a whole command. -/
theorem request_clear {bytes : List UInt8}
    (h : ((s.request sender i).run buf).2 = some (some (.clear bytes, len))) :
    bytes.length = 5 ∧ ∃ color, Encodes bytes (.fill 0 0 WIDTH HEIGHT color) := by
  obtain ⟨op, a, hop, ha, hof, hparse⟩ := request_eq_some h
  obtain rfl : a = .clear := hof
  obtain ⟨rfl, -⟩ := arm_of ha
  have hbound : i + 5 ≤ buf.length := by
    by_contra hlt
    rw [parse, run_bind, run_upTo, if_neg hlt] at hparse
    cases hparse
  rw [run_clear hbound, drop_eq_cons hop, List.take_succ_cons] at hparse
  have hlength : ((buf.drop (i + 1)).take 4).length = 4 := by
    rw [List.length_take, List.length_drop]
    omega
  cases hparse
  exact ⟨by rw [List.length_cons, hlength], _, encodes_clear hlength⟩

/-- Where the bytes and the damage of a `RECT` or `TEXT` come from. -/
theorem request_rect_or_text {bytes : List UInt8} {damage : Rect}
    (h : ((s.request sender i).run buf).2 = some (some (.draw bytes damage, len))) :
    (buf[i]? = some OP_RECT ∧ i + 13 ≤ buf.length ∧ len = 13 ∧ bytes = s.kept buf i 13 ∧
      damage = { x := be16 (buf.drop (i + 1)), y := be16 (buf.drop (i + 3)),
                 w := be16 (buf.drop (i + 5)), h := be16 (buf.drop (i + 7)) }) ∨
    ∃ n scale : UInt8, buf[i]? = some OP_TEXT ∧ buf[i + 10]? = some n ∧ buf[i + 9]? = some scale ∧
      i + (11 + n.toNat) ≤ buf.length ∧ len = 11 + n.toNat ∧
      bytes = s.kept buf i (11 + n.toNat) ∧
      damage = { x := be16 (buf.drop (i + 1)), y := be16 (buf.drop (i + 3)),
                 w := n.toNat * 8 * (max scale 1).toNat, h := 8 * (max scale 1).toNat } := by
  obtain ⟨op, a, hop, ha, hof, hparse⟩ := request_eq_some h
  rcases hof with rfl | rfl
  · obtain ⟨rfl, -⟩ := arm_of ha
    have hbound : i + 13 ≤ buf.length := bound_of_retained hparse
    rw [run_rect hbound] at hparse
    cases hparse
    exact Or.inl ⟨hop, hbound, rfl, rfl, rfl⟩
  · obtain ⟨rfl, -⟩ := arm_of ha
    have hafter := hparse
    rw [parse, run_bind, run_byte] at hafter
    obtain ⟨n, hn, hafter⟩ := Option.bind_eq_some_iff.mp hafter
    have hbound : i + (11 + n.toNat) ≤ buf.length := bound_of_retained hafter
    obtain ⟨scale, hscale⟩ : ∃ scale, buf[i + 9]? = some scale :=
      ⟨_, List.getElem?_eq_getElem (by omega)⟩
    rw [run_text s _ hn hscale hbound] at hparse
    cases hparse
    exact Or.inr ⟨n, scale, hop, hn, hscale, hbound, rfl, rfl, rfl⟩

theorem request_kept {bytes : List UInt8} {damage : Rect}
    (h : ((s.request sender i).run buf).2 = some (some (.draw bytes damage, len))) :
    bytes = s.kept buf i len := by
  rcases request_rect_or_text h with ⟨-, -, rfl, hbytes, -⟩ | ⟨n, -, -, -, -, -, rfl, hbytes, -⟩ <;>
    exact hbytes

/-- A retained `RECT` or `TEXT` is a whole command, and stays within its damage. -/
theorem request_draw {bytes : List UInt8} {damage : Rect}
    (h : ((s.request sender i).run buf).2 = some (some (.draw bytes damage, len)))
    (hk : s.Keeps len) :
    bytes.length = len ∧ ∃ d, Encodes bytes d ∧ ∀ px py, d.Reaches px py → damage.Contains px py := by
  have hrest : ∀ {m}, i + (m + 1) ≤ buf.length → ((buf.drop (i + 1)).take m).length = m := by
    intro m hm
    rw [List.length_take, List.length_drop]
    omega
  rcases request_rect_or_text h with ⟨hop, hbound, rfl, rfl, rfl⟩ |
    ⟨n, scale, hop, hn, hscale, hbound, rfl, rfl, rfl⟩
  · rw [kept, if_pos hk, drop_eq_cons hop, List.take_succ_cons]
    have hb := hrest hbound
    refine ⟨by rw [List.length_cons, hb], _, encodes_rect hb, fun px py hp => ?_⟩
    simpa only [Draw.Reaches, Draw.tiles, List.mem_singleton, exists_eq_left, List.drop_take,
      List.drop_drop, be16_take _ (Nat.le_add_left 2 _), be16_take _ (by decide : 2 ≤ 12 - 2),
      be16_take _ (by decide : 2 ≤ 12 - 4), be16_take _ (by decide : 2 ≤ 12 - 6)] using hp
  · have hsucc : 11 + n.toNat = 10 + n.toNat + 1 := by omega
    have hget : ∀ {k b}, buf[i + (k + 1)]? = some b → k < 10 →
        ((buf.drop (i + 1)).take 10).getD k 0 = b := by
      intro k b hb hk
      have hshift : i + 1 + k = i + (k + 1) := by omega
      rw [List.getD_eq_getElem?_getD, List.getElem?_take_of_lt hk, List.getElem?_drop, hshift, hb,
        Option.getD_some]
    have hhead := hrest (m := 10) (by omega)
    have hstr : (((buf.drop (i + 1)).drop 10).take n.toNat).length = n.toNat := by
      rw [List.length_take, List.length_drop, List.length_drop]
      omega
    have hcount : (((buf.drop (i + 1)).take 10).getD 9 0).toNat =
        (((buf.drop (i + 1)).drop 10).take n.toNat).length := by
      rw [hget hn (by decide), hstr]
    rw [kept, if_pos hk, drop_eq_cons hop, hsucc, List.take_succ_cons, List.take_add]
    refine ⟨by rw [List.length_cons, List.length_append, hhead, hstr], _,
      encodes_text _ hhead hcount, fun px py hp => ?_⟩
    have hin := text_within hp
    rw [hget hscale (by decide), hstr, max_assoc, max_self, be16_take _ (by decide), List.drop_take,
      be16_take _ (by decide), List.drop_drop] at hin
    rw [toNat_max_one]
    exact hin

end Server

end JungeyOs.Display
