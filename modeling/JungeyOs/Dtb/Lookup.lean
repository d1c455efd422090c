import JungeyOs.Dtb.Walker
import Mathlib.Data.Nat.ModEq

/-!
# Looking devices up

Model of `kernel/src/dtb.rs`, lines 32–63, 136–303 and 400–407: the functions that walk over the whole blob
to find nodes and properties. Each is a loop over the events (`scan`) with its own body; what it fills of
`out` is a list.

Results:
* `compatMatches_of_at`: an entry of the list is the wanted string.
* `readCells_of_at`: the number that a part of a `reg` is.
-/

namespace JungeyOs.Dtb

open Bytes Reads
open Jlfs (asBytes)

/-- `DeviceNode` (lines 33–39). -/
structure DeviceNode where
  base : ℕ
  size : ℕ
  irq : ℕ
  deriving DecidableEq

/-- `gic_intid` (lines 46–57). -/
def gicIntid (value : Slice) : Reads UInt8 (Option ℕ) :=
  if value.len < 12 then pure none
  else do
    let kind ← be32 value.pos
    let number ← be32 (value.pos + 4)
    if kind = 0 then pure (some ((number + 32) % 2 ^ 32))
    else if kind = 1 then pure (some ((number + 16) % 2 ^ 32))
    else pure none

/-- The rest of `compat_matches`, with `left` bytes from `i` on and `entry` of the current one before them. -/
def matchesFrom (want : List UInt8) : (left i : ℕ) → (entry : List UInt8) → Reads UInt8 Bool
  | 0, _, entry => pure (entry == want)
  | left + 1, i, entry => do
    let b ← byte i
    if b = 0 then
      if entry = want then pure true else matchesFrom want left (i + 1) []
    else matchesFrom want left (i + 1) (entry ++ [b])

/-- `compat_matches` (lines 59–63). -/
def compatMatches (value : Slice) (want : String) : Reads UInt8 Bool :=
  matchesFrom (asBytes want) value.len value.pos []

/-- The loop of `read_cells` (lines 402–405). -/
def cellsFrom : (cells pos v : ℕ) → Reads UInt8 ℕ
  | 0, _, v => pure v
  | cells + 1, pos, v => do
    let word ← be32 pos
    cellsFrom cells (pos + 4) ((v <<< 32) % 2 ^ 64 ||| word)

/-- `read_cells` (lines 400–407). -/
def readCells (blob : Slice) (offset cells : ℕ) : Reads UInt8 ℕ := cellsFrom cells (blob.pos + offset) 0

/-- `while let Some(ev) = w.next_event()`: the body goes on or returns. Every event takes a token. -/
def scan {σ ρ : Type} (f : Fdt) (body : σ → Walker → Event → Reads UInt8 (σ ⊕ ρ)) (result : σ → ρ) :
    (fuel : ℕ) → Walker → σ → Reads UInt8 ρ
  | 0, _, s => pure (result s)
  | fuel + 1, w, s => do
    let (ev, w) ← w.nextEvent f
    match ev with
    | none => pure (result s)
    | some ev =>
      let next ← body s w ev
      match next with
      | .inl s => scan f body result fuel w s
      | .inr r => pure r

/-! ## `node_regs` (lines 141–189) -/

/-- The variables of `node_regs`. -/
structure NodeRegs (α : Type) where
  addrCells : ℕ
  sizeCells : ℕ
  curCompat : Option α
  curReg : Option α

namespace NodeRegs

def new {α : Type} : NodeRegs α := ⟨2, 2, none, none⟩

/-- The pairs of a `reg` from `offset` on, at most `room` of them (lines 171–180). -/
def pairs (r : Slice) (addrCells sizeCells : ℕ) : (room offset : ℕ) → Reads UInt8 (List (ℕ × ℕ))
  | 0, _ => pure []
  | room + 1, offset =>
    let stride := (addrCells + sizeCells) * 4
    if offset + stride ≤ r.len then do
      let base ← readCells r offset addrCells
      let size ← readCells r (offset + addrCells * 4) sizeCells
      let more ← pairs r addrCells sizeCells room (offset + stride)
      return (base, size) :: more
    else pure []

/-- The check once both properties may be there (lines 168–183). -/
def look (compatible : String) (room : ℕ) (s : NodeRegs Slice) :
    Reads UInt8 (NodeRegs Slice ⊕ List (ℕ × ℕ)) :=
  match s.curCompat, s.curReg with
  | some c, some r => do
    let found ← compatMatches c compatible
    if found then do
      let out ← pairs r s.addrCells s.sizeCells room 0
      return .inr out
    else return .inl s
  | _, _ => pure (.inl s)

/-- The body of the loop (lines 149–186). -/
def body (compatible : String) (room : ℕ) (s : NodeRegs Slice) (_ : Walker) :
    Event → Reads UInt8 (NodeRegs Slice ⊕ List (ℕ × ℕ))
  | .beginNode _ _ => pure (.inl { s with curCompat := none, curReg := none })
  | .prop depth name value =>
    if depth = 1 ∧ name = "#address-cells" ∧ 4 ≤ value.len then do
      let addrCells ← be32 value.pos
      return .inl { s with addrCells }
    else if depth = 1 ∧ name = "#size-cells" ∧ 4 ≤ value.len then do
      let sizeCells ← be32 value.pos
      return .inl { s with sizeCells }
    else if name = "compatible" then look compatible room { s with curCompat := some value }
    else if name = "reg" then look compatible room { s with curReg := some value }
    else look compatible room s
  | .endNode => pure (.inl s)

end NodeRegs

/-- `node_regs` (lines 141–189), with room for `room` pairs in `out`. -/
def Fdt.nodeRegs (f : Fdt) (compatible : String) (room : ℕ) : Reads UInt8 (List (ℕ × ℕ)) :=
  scan f (NodeRegs.body compatible room) (fun _ => []) f.structSize Walker.new NodeRegs.new

/-! ## `devices` (lines 195–246) -/

/-- The variables of `devices`, with what has been written to `out`. -/
structure Devices (α β : Type) where
  addrCells : ℕ
  sizeCells : ℕ
  compat : Option α
  reg : Option α
  interrupts : Option α
  out : List β

namespace Devices

def new {α β : Type} : Devices α β := ⟨2, 2, none, none, none, []⟩

/-- The properties of the current node are forgotten. -/
def forget {α β : Type} (s : Devices α β) : Devices α β :=
  { s with compat := none, reg := none, interrupts := none }

/-- The interrupt of a device (line 236). -/
def irq (interrupts : Option Slice) : Reads UInt8 ℕ :=
  match interrupts with
  | none => pure 0
  | some value => do
    let id ← gicIntid value
    return id.getD 0

/-- What the body does with an event (lines 208–243). -/
def on (compatible : String) (s : Devices Slice DeviceNode) :
    Event → Reads UInt8 (Devices Slice DeviceNode)
  | .beginNode _ _ => pure s.forget
  | .prop depth name value =>
    if depth = 1 ∧ name = "#address-cells" ∧ 4 ≤ value.len then do
      let addrCells ← be32 value.pos
      return { s with addrCells }
    else if depth = 1 ∧ name = "#size-cells" ∧ 4 ≤ value.len then do
      let sizeCells ← be32 value.pos
      return { s with sizeCells }
    else if name = "compatible" then pure { s with compat := some value }
    else if name = "reg" then pure { s with reg := some value }
    else if name = "interrupts" then pure { s with interrupts := some value }
    else pure s
  | .endNode =>
    match s.compat, s.reg with
    | some c, some r => do
      let found ← compatMatches c compatible
      if !found || r.len < (s.addrCells + s.sizeCells) * 4 then return s
      else do
        let base ← readCells r 0 s.addrCells
        let size ← readCells r (s.addrCells * 4) s.sizeCells
        let irq ← irq s.interrupts
        return { s.forget with out := s.out ++ [{ base, size, irq }] }
    | _, _ => pure s

/-- The body of the loop (lines 204–243). -/
def body (compatible : String) (room : ℕ) (s : Devices Slice DeviceNode) (_ : Walker) (ev : Event) :
    Reads UInt8 (Devices Slice DeviceNode ⊕ List DeviceNode) :=
  if room ≤ s.out.length then pure (.inr s.out)
  else do
    let s ← s.on compatible ev
    return .inl s

end Devices

/-- `devices` (lines 195–246), with room for `room` nodes in `out`. -/
def Fdt.devices (f : Fdt) (compatible : String) (room : ℕ) : Reads UInt8 (List DeviceNode) :=
  scan f (Devices.body compatible room) Devices.out f.structSize Walker.new Devices.new

/-! ## `prop_of` (lines 249–275) -/

/-- The variables of `prop_of`. -/
structure PropOf where
  curCompat : Option Slice
  curVal : Option Slice

def PropOf.new : PropOf := ⟨none, none⟩

/-- The check once both properties may be there (lines 265–269). -/
def PropOf.look (compatible : String) (s : PropOf) : Reads UInt8 (PropOf ⊕ Option Slice) :=
  match s.curCompat, s.curVal with
  | some c, some v => do
    let found ← compatMatches c compatible
    if found then return .inr (some v) else return .inl s
  | _, _ => pure (.inl s)

/-- The body of the loop (lines 254–272). -/
def PropOf.body (compatible prop : String) (s : PropOf) (_ : Walker) :
    Event → Reads UInt8 (PropOf ⊕ Option Slice)
  | .beginNode _ _ => pure (.inl ⟨none, none⟩)
  | .prop _ name value =>
    if name = "compatible" then look compatible { s with curCompat := some value }
    else if name = prop then look compatible { s with curVal := some value }
    else look compatible s
  | .endNode => pure (.inl s)

/-- `prop_of` (lines 249–275). -/
def Fdt.propOf (f : Fdt) (compatible prop : String) : Reads UInt8 (Option Slice) :=
  scan f (PropOf.body compatible prop) (fun _ => none) f.structSize Walker.new PropOf.new

/-! ## `cpus` (lines 281–303) -/

/-- The variables of `cpus`, with what has been written to `out`. -/
structure Cpus where
  inCpus : Bool
  cells : ℕ
  out : List ℕ

def Cpus.new : Cpus where
  inCpus := false
  cells := 1
  out := []

/-- The body of the loop (lines 288–300). -/
def Cpus.body (room : ℕ) (s : Cpus) (_ : Walker) : Event → Reads UInt8 (Cpus ⊕ List ℕ)
  | .beginNode depth name =>
    if depth = 2 then pure (.inl { s with inCpus := name == "cpus" }) else pure (.inl s)
  | .prop depth name value =>
    if depth = 2 ∧ name = "#address-cells" ∧ s.inCpus ∧ 4 ≤ value.len then do
      let cells ← be32 value.pos
      return .inl { s with cells }
    else if depth = 3 ∧ name = "reg" ∧ s.inCpus then
      if s.out.length < room ∧ s.cells * 4 ≤ value.len then do
        let mpidr ← readCells value 0 s.cells
        return .inl { s with out := s.out ++ [mpidr] }
      else pure (.inl s)
    else pure (.inl s)
  | .endNode => pure (.inl s)

/-- `cpus` (lines 281–303), with room for `room` values in `out`. -/
def Fdt.cpus (f : Fdt) (room : ℕ) : Reads UInt8 (List ℕ) :=
  scan f (Cpus.body room) Cpus.out f.structSize Walker.new Cpus.new

/-! ## What is read of a value -/

section

variable {blob bytes : List UInt8} {n i v : ℕ} {value : Slice}

/-- The rest of `compat_matches` looks for the string among the entries that are left. -/
theorem matchesFrom_of_at (want : List UInt8) (bytes : List UInt8) : ∀ {i : ℕ} {entry : List UInt8},
    At blob i bytes → (matchesFrom want bytes.length i entry).Safe blob n ∧
      ((matchesFrom want bytes.length i entry).value blob = true ↔
        want ∈ List.splitOnPPrepend (· == 0) bytes entry.reverse) := by
  induction bytes with
  | nil =>
    intro i entry _
    refine ⟨safe_pure _, ?_⟩
    rw [List.length_nil, matchesFrom, value_pure, List.splitOnPPrepend_nil, List.reverse_reverse,
      List.mem_singleton, beq_iff_eq, eq_comm]
  | cons b bytes ih =>
    intro i entry hat
    obtain ⟨hi, hb⟩ := hat.byte
    rw [List.length_cons, matchesFrom, safe_bind, value_bind, safe_byte, hb, and_iff_right hi]
    by_cases hzero : b = 0
    · rw [if_pos hzero, List.splitOnPPrepend_cons_pos (by simp [hzero]), List.reverse_reverse,
        List.mem_cons]
      by_cases hentry : entry = want
      · rw [if_pos hentry]
        exact ⟨safe_pure _, iff_of_true rfl (Or.inl hentry.symm)⟩
      · rw [if_neg hentry, or_iff_right fun h => hentry h.symm]
        exact ih hat.tail
    · rw [if_neg hzero, List.splitOnPPrepend_cons_neg (by simp [hzero])]
      have hentry : (entry ++ [b]).reverse = b :: entry.reverse := List.reverse_concat
      rw [← hentry]
      exact ih hat.tail

/-- An entry of the list, whose entries NULs separate, is the wanted string. -/
theorem compatMatches_of_holds (want : String) (h : value.Holds blob bytes) :
    (compatMatches value want).Safe blob n ∧
      ((compatMatches value want).value blob = true ↔ asBytes want ∈ bytes.splitOn 0) := by
  rw [compatMatches, h.2]
  exact matchesFrom_of_at (asBytes want) bytes h.1

/-- A word behind a number of 64 bits. -/
theorem shift_word (v : ℕ) {word : ℕ} (h : word < 2 ^ 32) :
    (v <<< 32) % 2 ^ 64 ||| word = (v * 2 ^ 32 + word) % 2 ^ 64 := by
  have hshift : (v <<< 32) % 2 ^ 64 = (v % 2 ^ 32) <<< 32 := by
    rw [Nat.shiftLeft_eq, Nat.shiftLeft_eq]
    omega
  rw [hshift, ← Nat.shiftLeft_add_eq_or_of_lt h, Nat.shiftLeft_eq]
  omega

theorem cellsFrom_of_at (cells : ℕ) : ∀ {bytes : List UInt8} {pos v : ℕ}, At blob pos bytes →
    bytes.length = cells * 4 → v < 2 ^ 64 → (cellsFrom cells pos v).Safe blob n ∧
      (cellsFrom cells pos v).value blob = (v * 256 ^ bytes.length + ofBE bytes) % 2 ^ 64 := by
  induction cells with
  | zero =>
    intro bytes pos v _ hlen hv
    obtain rfl : bytes = [] := List.length_eq_zero_iff.mp (by omega)
    refine ⟨safe_pure _, ?_⟩
    rw [cellsFrom, value_pure, List.length_nil, pow_zero, Nat.mul_one]
    exact (Nat.mod_eq_of_lt hv).symm
  | succ cells ih =>
    intro bytes pos v hat hlen hv
    obtain ⟨word, rest, rfl, hword⟩ : ∃ word rest, bytes = word ++ rest ∧ word.length = 4 :=
      ⟨bytes.take 4, bytes.drop 4, (List.take_append_drop 4 bytes).symm, by rw [List.length_take]; omega⟩
    obtain ⟨hat, hrest⟩ := at_append.mp hat
    rw [hword] at hrest
    rw [List.length_append, hword] at hlen
    obtain ⟨hsafe, hvalue⟩ := be32_of_word (n := n) hat hword
    have hlt : ofBE word < 2 ^ 32 := by
      have hlt := ofBE_lt word
      rw [hword] at hlt
      omega
    obtain ⟨hsafe', hvalue'⟩ := ih hrest (by omega) (Nat.mod_lt (v * 2 ^ 32 + ofBE word) (by decide))
    rw [cellsFrom, safe_bind, value_bind, hvalue, shift_word v hlt]
    refine ⟨⟨hsafe, hsafe'⟩, hvalue'.trans ?_⟩
    have hmod : (v * 2 ^ 32 + ofBE word) % 2 ^ 64 * 256 ^ rest.length + ofBE rest ≡
        (v * 2 ^ 32 + ofBE word) * 256 ^ rest.length + ofBE rest [MOD 2 ^ 64] :=
      ((Nat.mod_modEq _ _).mul_right _).add_right _
    have hnumber : v * 256 ^ (word ++ rest).length + ofBE (word ++ rest) =
        (v * 2 ^ 32 + ofBE word) * 256 ^ rest.length + ofBE rest := by
      rw [ofBE_append, List.length_append, hword, pow_add]
      ring
    rw [hnumber]
    exact hmod

/-- The number that a part of a `reg` is, cut to 64 bits. -/
theorem readCells_of_holds {offset cells : ℕ} (h : value.Holds blob bytes)
    (hlen : offset + cells * 4 ≤ bytes.length) : (readCells value offset cells).Safe blob n ∧
      (readCells value offset cells).value blob =
        ofBE ((bytes.drop offset).take (cells * 4)) % 2 ^ 64 := by
  have hpart : At blob (value.pos + offset) ((bytes.drop offset).take (cells * 4)) :=
    h.1.trans (List.take_prefix _ _)
  have hcells : ((bytes.drop offset).take (cells * 4)).length = cells * 4 := by
    rw [List.length_take, List.length_drop]
    omega
  obtain ⟨hsafe, hvalue⟩ := cellsFrom_of_at (n := n) cells hpart hcells (Nat.two_pow_pos 64)
  rw [Nat.zero_mul, Nat.zero_add] at hvalue
  exact ⟨hsafe, hvalue⟩

/-- A word of a value. -/
theorem be32_of_holds {offset : ℕ} (h : value.Holds blob bytes) (hlen : offset + 4 ≤ bytes.length) :
    (be32 (value.pos + offset)).Safe blob n ∧
      (be32 (value.pos + offset)).value blob = ofBE ((bytes.drop offset).take 4) := by
  apply be32_of_word (h.1.trans (List.take_prefix _ _))
  rw [List.length_take, List.length_drop]
  omega

theorem be32_of_start (h : value.Holds blob bytes) (hlen : 4 ≤ bytes.length) :
    (be32 value.pos).Safe blob n ∧ (be32 value.pos).value blob = ofBE (bytes.take 4) := by
  have hword := be32_of_holds (n := n) h (show 0 + 4 ≤ bytes.length by omega)
  rwa [List.drop_zero, Nat.add_zero] at hword

theorem gicIntid_safe (h : value.Holds blob bytes) : (gicIntid value).Safe blob n := by
  rw [gicIntid, safe_ite]
  refine ⟨fun _ => safe_pure _, fun hlen => ?_⟩
  rw [h.2] at hlen
  obtain ⟨hkind, -⟩ := be32_of_start (n := n) h (by omega)
  obtain ⟨hnumber, -⟩ := be32_of_holds (n := n) h (show 4 + 4 ≤ bytes.length by omega)
  rw [safe_bind, safe_bind, safe_ite, safe_ite]
  exact ⟨hkind, hnumber, fun _ => safe_pure _, fun _ => ⟨fun _ => safe_pure _, fun _ => safe_pure _⟩⟩

end

end JungeyOs.Dtb
