import JungeyOs.Jlfs.Layout
import JungeyOs.Lib.Reads

/-!
# The device tree blob

Model of `kernel/src/dtb.rs`, lines 10–111 and 316–389: the header, strings, and the walk over the tokens of
the structure block. The blob is the first `total_size` bytes of the memory from `base` on. Nothing is
checked against `total_size`, so that what is behind the blob can be read too.

Results:
* `cstr_safe_iff`, `cstr_of_at`: what a string reads, and what it is.
* `nextEvent_nop` and the others: what `next_event` does at each token.
-/

namespace JungeyOs.Dtb

open Bytes Reads
open Jlfs (asBytes fromUtf8)

def FDT_MAGIC : ℕ := 0xd00dfeed
def FDT_BEGIN_NODE : ℕ := 1
def FDT_END_NODE : ℕ := 2
def FDT_PROP : ℕ := 3
def FDT_NOP : ℕ := 4
def FDT_END : ℕ := 9

/-- `be32` (lines 17–20), on the memory from `base` on. -/
def be32 (i : ℕ) : Reads UInt8 ℕ := do
  let bytes ← slice i 4
  return ofBE bytes

/-- `align4` (lines 22–25). -/
def align4 (n : ℕ) : ℕ := (n + 3) / 4 * 4

/-- The bytes before the next NUL (lines 68–72). No string is as long as the address space. -/
def untilNul : (fuel i : ℕ) → Reads UInt8 (List UInt8)
  | 0, _ => pure []
  | fuel + 1, i => do
    let b ← byte i
    if b = 0 then pure []
    else do
      let bytes ← untilNul fuel (i + 1)
      return b :: bytes

/-- A string of the blob (line 73). -/
def toStr (bytes : List UInt8) : String := (fromUtf8 bytes).getD "<non-utf8>"

/-- `cstr` (lines 65–74). -/
def cstr (i : ℕ) : Reads UInt8 (String × ℕ) := do
  let bytes ← untilNul (2 ^ 64) i
  return (toStr bytes, bytes.length + 1)

/-- `Fdt` (lines 76–82). -/
structure Fdt where
  structOff : ℕ
  structSize : ℕ
  stringsOff : ℕ
  totalSize : ℕ
  deriving DecidableEq

/-- `Fdt::new` (lines 86–103). -/
def Fdt.new (addr : ℕ) : Reads UInt8 (Option Fdt) :=
  if addr = 0 ∨ addr &&& 7 ≠ 0 then pure none
  else do
    let magic ← be32 0
    if magic ≠ FDT_MAGIC then pure none
    else do
      let totalSize ← be32 4
      let structOff ← be32 8
      let stringsOff ← be32 12
      let structSize ← be32 36
      return some { structOff, structSize, stringsOff, totalSize }

/-- `str_at` (lines 109–111). -/
def Fdt.strAt (f : Fdt) (off : ℕ) : Reads UInt8 String := do
  let (name, _) ← cstr (f.stringsOff + off)
  return name

/-- A `&'static [u8]` in the blob. -/
structure Slice where
  pos : ℕ
  len : ℕ
  deriving DecidableEq

/-- The slice has the bytes, and they are in the blob. -/
def Slice.Holds (blob : List UInt8) (s : Slice) (bytes : List UInt8) : Prop :=
  At blob s.pos bytes ∧ s.len = bytes.length

/-- `Event` (lines 316–327). -/
inductive Event
  | beginNode (depth : ℕ) (name : String)
  | endNode
  | prop (depth : ℕ) (name : String) (value : Slice)
  deriving DecidableEq

/-- `Walker` (lines 330–335). -/
structure Walker where
  pos : ℕ
  depth : ℕ
  node : String
  deriving DecidableEq

namespace Walker

/-- `Walker::new` (lines 338–340). -/
def new : Walker where
  pos := 0
  depth := 0
  node := ""

/-- What `next_event` makes of a token that is no `FDT_NOP` (lines 351–382), with the walker behind it. -/
def event (f : Fdt) (w : Walker) (token : ℕ) : Reads UInt8 (Option Event × Walker) :=
  if token = FDT_END then pure (none, w)
  else if token = FDT_BEGIN_NODE then do
    let (name, n) ← cstr (f.structOff + w.pos)
    return (some (.beginNode (w.depth + 1) name),
      { pos := w.pos + align4 n, depth := w.depth + 1, node := name })
  else if token = FDT_END_NODE then
    return (some .endNode, { w with depth := w.depth - 1 })
  else if token = FDT_PROP then do
    let len ← be32 (f.structOff + w.pos)
    let nameoff ← be32 (f.structOff + w.pos + 4)
    let name ← f.strAt nameoff
    return (some (.prop w.depth name { pos := f.structOff + w.pos + 8, len }),
      { w with pos := w.pos + 8 + align4 len })
  -- corrupt blob
  else pure (none, w)

/-- The walker behind a token. -/
def skip (w : Walker) : Walker := { w with pos := w.pos + 4 }

/-- The loop of `next_event` (lines 343–383). -/
def nextFrom (f : Fdt) : (fuel : ℕ) → Walker → Reads UInt8 (Option Event × Walker)
  | 0, w => pure (none, w)
  | fuel + 1, w =>
    if f.structSize < w.pos + 4 then pure (none, w)
    else do
      let token ← be32 (f.structOff + w.pos)
      if token = FDT_NOP then nextFrom f fuel w.skip else event f w.skip token

/-- `next_event` (lines 342–384): every turn of its loop takes a token. -/
def nextEvent (f : Fdt) (w : Walker) : Reads UInt8 (Option Event × Walker) :=
  nextFrom f (f.structSize - w.pos) w

/-- `in_memory_node` (lines 386–388). -/
def inMemoryNode (w : Walker) : Bool :=
  w.depth == 2 && (w.node == "memory" || (asBytes "memory@").isPrefixOf (asBytes w.node))

end Walker

section

variable {blob : List UInt8} {n i v : ℕ} {name : String} {f : Fdt}

/-! ## Numbers and strings -/

@[simp]
theorem safe_be32 (i : ℕ) : (be32 i).Safe blob n ↔ i + 4 ≤ blob.length := by
  simp [be32]

theorem value_be32 (h : i + 4 ≤ blob.length) : (be32 i).value blob = ofBE ((blob.drop i).take 4) := by
  rw [be32, value_bind, value_slice h, value_pure]

theorem be32_of_word {word : List UInt8} (h : At blob i word) (hlen : word.length = 4) :
    (be32 i).Safe blob n ∧ (be32 i).value blob = ofBE word := by
  have hle := h.le (List.ne_nil_of_length_pos (by omega))
  have htake := h.take
  rw [hlen] at hle htake
  rw [safe_be32, value_be32 hle, htake]
  exact ⟨hle, rfl⟩

/-- A number that is in the blob. -/
theorem be32_of_at (h : At blob i (beList 4 v)) (hv : v < 2 ^ 32) :
    (be32 i).Safe blob n ∧ (be32 i).value blob = v := by
  have hword := be32_of_word (n := n) h (length_beList 4 v)
  rwa [ofBE_beList (by omega)] at hword

theorem be32_returns (i : ℕ) : (be32 i).Returns (· < 2 ^ 32) := by
  refine (slice_returns i 4).bind fun bytes hlen => returns_pure ?_
  have hlt := ofBE_lt bytes
  rw [hlen] at hlt
  exact hlt

/-- The sizes in the header are words. -/
theorem new_returns (addr : ℕ) : (Fdt.new addr).Returns fun r => ∀ f, r = some f → f.totalSize < 2 ^ 32 := by
  rw [Fdt.new]
  split_ifs
  · exact returns_pure nofun
  · refine returns_bind _ fun magic => ?_
    split_ifs
    · exact returns_pure nofun
    · refine (be32_returns 4).bind fun totalSize hlt => ?_
      refine returns_bind _ fun structOff => returns_bind _ fun stringsOff => returns_bind _ fun structSize =>
        returns_pure fun f hf => ?_
      rw [← Option.some.inj hf]
      exact hlt

/-- The scan for a NUL stays in the blob exactly if there is one. -/
theorem untilNul_safe_iff (fuel : ℕ) : ∀ {i : ℕ}, 0 < fuel → blob.length < i + fuel →
    ((untilNul fuel i).Safe blob n ↔ 0 ∈ blob.drop i) := by
  induction fuel with
  | zero => exact fun hpos => absurd hpos (Nat.lt_irrefl 0)
  | succ fuel ih =>
    intro i _ hfuel
    rw [untilNul, safe_bind, safe_byte]
    by_cases hi : i < blob.length
    · rw [and_iff_right hi, value_byte_of_lt hi, List.drop_eq_getElem_cons hi, List.mem_cons]
      by_cases hb : blob[i] = 0
      · rw [if_pos hb]
        exact iff_of_true (safe_pure _) (Or.inl hb.symm)
      · rw [if_neg hb, safe_bind, or_iff_right fun h => hb h.symm, ← ih (by omega) (by omega)]
        exact and_iff_left (safe_pure _)
    · refine iff_of_false (fun h => hi h.1) ?_
      rw [List.drop_of_length_le (Nat.not_lt.mp hi)]
      exact List.not_mem_nil

/-- The scan of bytes that a NUL ends. -/
theorem untilNul_of_at (bytes : List UInt8) : ∀ {fuel i : ℕ}, At blob i (bytes ++ [0]) → 0 ∉ bytes →
    bytes.length < fuel → (untilNul fuel i).Safe blob n ∧ (untilNul fuel i).value blob = bytes := by
  induction bytes with
  | nil =>
    intro fuel i h _ hfuel
    obtain ⟨fuel, rfl⟩ := Nat.exists_eq_succ_of_ne_zero (Nat.pos_iff_ne_zero.mp hfuel)
    obtain ⟨hi, hb⟩ := h.byte
    rw [untilNul, safe_bind, value_bind, safe_byte, hb]
    exact ⟨⟨hi, trivial⟩, rfl⟩
  | cons b bytes ih =>
    intro fuel i h hnul hfuel
    obtain ⟨fuel, rfl⟩ := Nat.exists_eq_succ_of_ne_zero (Nat.ne_zero_of_lt hfuel)
    obtain ⟨hi, hb⟩ := h.byte
    have hne : b ≠ 0 := fun hz => hnul (hz ▸ List.mem_cons_self)
    obtain ⟨hsafe, hvalue⟩ := ih h.tail (fun hmem => hnul (List.mem_cons_of_mem b hmem))
      (Nat.lt_of_succ_lt_succ hfuel)
    rw [untilNul, safe_bind, value_bind, safe_byte, hb, if_neg hne, safe_bind, value_bind, hvalue]
    exact ⟨⟨hi, hsafe, safe_pure _⟩, rfl⟩

theorem cstr_safe_iff (hblob : blob.length < 2 ^ 64) : (cstr i).Safe blob n ↔ 0 ∈ blob.drop i := by
  rw [cstr, safe_bind, untilNul_safe_iff _ (by decide) (by omega)]
  exact and_iff_left (safe_pure _)

/-- A name that is in the blob. -/
theorem cstr_of_at (hblob : blob.length < 2 ^ 64) (h : At blob i (asBytes name ++ [0]))
    (hnul : 0 ∉ asBytes name) :
    (cstr i).Safe blob n ∧ (cstr i).value blob = (name, (asBytes name).length + 1) := by
  have hlen : (asBytes name).length < 2 ^ 64 := by
    have hle := h.le (by simp)
    rw [List.length_append] at hle
    omega
  obtain ⟨hsafe, hvalue⟩ := untilNul_of_at _ h hnul hlen
  rw [cstr, safe_bind, value_bind, hvalue, value_pure, toStr, Jlfs.fromUtf8_asBytes]
  exact ⟨⟨hsafe, safe_pure _⟩, rfl⟩

namespace Walker

variable {w : Walker} {token : ℕ}

/-! ## Tokens -/

@[simp] theorem skip_pos (w : Walker) : w.skip.pos = w.pos + 4 := rfl

/-- More fuel than the tokens that are left makes no difference. -/
theorem nextFrom_eq (f : Fdt) : ∀ {m n : ℕ} {w : Walker}, f.structSize ≤ w.pos + m →
    f.structSize ≤ w.pos + n → nextFrom f m w = nextFrom f n w
  | 0, 0, _, _, _ => rfl
  | 0, n + 1, w, hm, _ => by
    rw [nextFrom, nextFrom, if_pos (by omega)]
  | m + 1, 0, w, _, hn => by
    rw [nextFrom, nextFrom, if_pos (by omega)]
  | m + 1, n + 1, w, hm, hn => by
    have hrest : nextFrom f m w.skip = nextFrom f n w.skip :=
      nextFrom_eq f (by rw [skip_pos]; omega) (by rw [skip_pos]; omega)
    rw [nextFrom, nextFrom, hrest]

/-- One turn of the loop of `next_event`. -/
theorem nextEvent_eq (h : w.pos + 4 ≤ f.structSize) : nextEvent f w = (do
    let token ← be32 (f.structOff + w.pos)
    if token = FDT_NOP then nextEvent f w.skip else event f w.skip token) := by
  obtain ⟨fuel, hfuel⟩ := Nat.exists_eq_succ_of_ne_zero (show f.structSize - w.pos ≠ 0 by omega)
  have hrest : nextFrom f fuel w.skip = nextEvent f w.skip :=
    nextFrom_eq f (by rw [skip_pos]; omega) (by rw [skip_pos]; omega)
  rw [nextEvent, hfuel, nextFrom, if_neg (by omega), hrest]

theorem nextEvent_end (h : f.structSize < w.pos + 4) : nextEvent f w = pure (none, w) := by
  rw [nextEvent]
  cases f.structSize - w.pos with
  | zero => rfl
  | succ fuel => rw [nextFrom, if_pos h]

/-- What `next_event` comes back with has taken a token of the structure block. -/
def Took (f : Fdt) (w : Walker) (r : Option Event × Walker) : Prop :=
  r.1.isSome → w.pos + 4 ≤ f.structSize ∧ w.pos + 4 ≤ r.2.pos

theorem event_took (h : w.pos + 4 ≤ f.structSize) (token : ℕ) :
    (event f w.skip token).Returns (Took f w) := by
  rw [event]
  split_ifs
  · exact returns_pure nofun
  · exact returns_bind _ fun _ => returns_pure fun _ => ⟨h, Nat.le_add_right _ _⟩
  · exact returns_pure fun _ => ⟨h, le_rfl⟩
  · refine returns_bind _ fun len => returns_bind _ fun off => returns_bind _ fun name =>
      returns_pure fun _ => ⟨h, ?_⟩
    show w.pos + 4 ≤ w.pos + 4 + 8 + align4 len
    omega
  · exact returns_pure nofun

theorem nextFrom_took (fuel : ℕ) : ∀ w : Walker, (nextFrom f fuel w).Returns (Took f w) := by
  induction fuel with
  | zero => exact fun w => returns_pure nofun
  | succ fuel ih =>
    intro w
    rw [nextFrom]
    by_cases h : f.structSize < w.pos + 4
    · rw [if_pos h]
      exact returns_pure nofun
    · rw [if_neg h]
      refine returns_bind _ fun token => ?_
      split_ifs
      · refine (ih w.skip).imp fun r hr hsome => ?_
        obtain ⟨hsize, hpos⟩ := hr hsome
        rw [skip_pos] at hsize hpos
        exact ⟨by omega, by omega⟩
      · exact event_took (Nat.not_lt.mp h) token

theorem nextEvent_took (f : Fdt) (w : Walker) : (nextEvent f w).Returns (Took f w) := nextFrom_took _ w

/-- A token that is in the blob. -/
theorem nextEvent_token (h : w.pos + 4 ≤ f.structSize) (hat : At blob (f.structOff + w.pos) (beList 4 token))
    (hlt : token < 2 ^ 32) (hnop : token ≠ FDT_NOP) :
    ((nextEvent f w).Safe blob n ↔ (event f w.skip token).Safe blob n) ∧
      (nextEvent f w).value blob = (event f w.skip token).value blob := by
  obtain ⟨hsafe, hvalue⟩ := be32_of_at (n := n) hat hlt
  rw [nextEvent_eq h, safe_bind, value_bind, hvalue, if_neg hnop, and_iff_right hsafe]
  exact ⟨Iff.rfl, rfl⟩

theorem nextEvent_nop (h : w.pos + 4 ≤ f.structSize)
    (hat : At blob (f.structOff + w.pos) (beList 4 FDT_NOP)) :
    ((nextEvent f w).Safe blob n ↔ (nextEvent f w.skip).Safe blob n) ∧
      (nextEvent f w).value blob = (nextEvent f w.skip).value blob := by
  obtain ⟨hsafe, hvalue⟩ := be32_of_at (n := n) hat (by decide)
  rw [nextEvent_eq h, safe_bind, value_bind, hvalue, if_pos rfl, and_iff_right hsafe]
  exact ⟨Iff.rfl, rfl⟩

theorem event_beginNode (hblob : blob.length < 2 ^ 64)
    (hat : At blob (f.structOff + w.pos) (asBytes name ++ [0])) (hnul : 0 ∉ asBytes name) :
    (event f w FDT_BEGIN_NODE).Safe blob n ∧ (event f w FDT_BEGIN_NODE).value blob =
      (some (.beginNode (w.depth + 1) name),
        { pos := w.pos + align4 ((asBytes name).length + 1), depth := w.depth + 1, node := name }) := by
  obtain ⟨hsafe, hvalue⟩ := cstr_of_at (n := n) hblob hat hnul
  rw [event, if_neg (by decide), if_pos rfl, safe_bind, value_bind, hvalue, and_iff_right hsafe]
  exact ⟨safe_pure _, rfl⟩

theorem event_prop {len off : ℕ} (hblob : blob.length < 2 ^ 64)
    (hhead : At blob (f.structOff + w.pos) (beList 4 len ++ beList 4 off)) (hlen : len < 2 ^ 32)
    (hoff : off < 2 ^ 32) (hat : At blob (f.stringsOff + off) (asBytes name ++ [0]))
    (hnul : 0 ∉ asBytes name) :
    (event f w FDT_PROP).Safe blob n ∧ (event f w FDT_PROP).value blob =
      (some (.prop w.depth name { pos := f.structOff + w.pos + 8, len }),
        { w with pos := w.pos + 8 + align4 len }) := by
  obtain ⟨hheadLen, hheadOff⟩ := at_append.mp hhead
  rw [length_beList] at hheadOff
  obtain ⟨hsafeLen, hvalueLen⟩ := be32_of_at (n := n) hheadLen hlen
  obtain ⟨hsafeOff, hvalueOff⟩ := be32_of_at (n := n) hheadOff hoff
  obtain ⟨hsafe, hvalue⟩ := cstr_of_at (n := n) hblob hat hnul
  have hstr : (f.strAt off).Safe blob n ∧ (f.strAt off).value blob = name := by
    rw [Fdt.strAt, safe_bind, value_bind, hvalue, and_iff_right hsafe]
    exact ⟨safe_pure _, rfl⟩
  rw [event, if_neg (by decide), if_neg (by decide), if_neg (by decide), if_pos rfl, safe_bind, value_bind,
    hvalueLen, and_iff_right hsafeLen, safe_bind, value_bind, hvalueOff, and_iff_right hsafeOff, safe_bind,
    value_bind, hstr.2, and_iff_right hstr.1]
  exact ⟨safe_pure _, rfl⟩

end Walker

end

end JungeyOs.Dtb
