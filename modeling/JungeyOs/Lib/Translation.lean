import JungeyOs.Lib.A64

/-!
# Address translation

The walk of the translation tables in `JungeyOs.Lib.A64`, with pages of 4 KiB and addresses of 48 bits
in both halves. A descriptor without the access flag faults.

Results:
* `toNat_field`: which entry of a table an address selects.
* `toNat_output`: the address that a descriptor of a block gives.
-/

namespace JungeyOs.A64

/-- The entry that an address selects, in a table with `left` levels below it. -/
def field (va : Word) (left : ℕ) : Word := (va >>> (12 + 9 * left)) &&& 0x1FF

/-- The offset in a page or a block that is `left` levels above the pages. -/
def offsetMask (left : ℕ) : Word := BitVec.ofNat 64 (2 ^ (12 + 9 * left) - 1)

/-- The address of a table or a page in a descriptor. -/
def ADDRESS : Word := 0x0000FFFFFFFFF000

/-- The address that the descriptor of a page or a block gives. -/
def output (d va : Word) (left : ℕ) : Word :=
  (d &&& ADDRESS &&& ~~~offsetMask left) ||| (va &&& offsetMask left)

/-- The access flag is set. -/
def accessed (d : Word) : Bool := d.getLsbD 10

/-- The walk from a table with `left` levels below it: the output address, and the descriptor of the
page or the block. -/
def walkFrom (mem : Mem) (va : Word) : ℕ → Word → Option (Word × Word)
  | 0, table =>
    let d := load mem (table + 8 * field va 0)
    if d &&& 3 = 3 ∧ accessed d then some (output d va 0, d) else none
  | left + 1, table =>
    let d := load mem (table + 8 * field va (left + 1))
    if d &&& 3 = 3 then walkFrom mem va left (d &&& ADDRESS)
    else if d &&& 3 = 1 ∧ left < 2 ∧ accessed d then some (output d va (left + 1), d)
    else none

namespace State

/-- `SCTLR_EL1.M`. -/
def mmuOn (s : State) : Bool := (s.sys .sctlrEl1).getLsbD 0

/-- `TCR_EL1` has 48 bits of address (`T0SZ`, `T1SZ`) and 4 KiB (`TG0`, `TG1`) in both halves. -/
def regular (s : State) : Prop := s.sys .tcrEl1 &&& 0xC03FC03F = 0x80100010

instance (s : State) : Decidable s.regular := inferInstanceAs (Decidable (_ = _))

/-- What an address of level 0 or 1 stands for, with the descriptor that maps it; `none` if it faults,
or if the tables are not of the kind that is described here. -/
def translate (s : State) (va : Word) : Option (Word × Word) :=
  if ¬s.regular then none
  else if va >>> 48 = 0 then
    -- `EPD0`
    if (s.sys .tcrEl1).getLsbD 7 then none
    else walkFrom s.mem va 3 (s.sys .ttbr0El1 &&& ADDRESS)
  else if va >>> 48 = 0xFFFF then
    -- `EPD1`
    if (s.sys .tcrEl1).getLsbD 23 then none
    else walkFrom s.mem va 3 (s.sys .ttbr1El1 &&& ADDRESS)
  else none

end State

/-! ## Permissions -/

/-- Level 1 may execute (`PXN`). -/
def executable (d : Word) : Bool := !d.getLsbD 53

/-- Level 0 may execute (`UXN`). -/
def userExecutable (d : Word) : Bool := !d.getLsbD 54

/-- Level 0 may read (`AP[1]`). -/
def userAccessible (d : Word) : Bool := d.getLsbD 6

/-- `AttrIndx`, an index into `MAIR_EL1`. -/
def attrIndx (d : Word) : BitVec 3 := d.extractLsb' 2 3

section

variable {va : Word}

theorem toNat_field (va : Word) (left : ℕ) :
    (field va left).toNat = va.toNat / 2 ^ (12 + 9 * left) % 512 := by
  have hmask : (0x1FF : Word).toNat = 2 ^ 9 - 1 := rfl
  rw [field, BitVec.toNat_and, hmask, Nat.and_two_pow_sub_one_eq_mod, BitVec.toNat_ushiftRight,
    Nat.shiftRight_eq_div_pow]

theorem toNat_offset {left : ℕ} (h : left < 4) (va : Word) :
    (va &&& offsetMask left).toNat = va.toNat % 2 ^ (12 + 9 * left) := by
  have hlt : 2 ^ (12 + 9 * left) - 1 < 2 ^ 64 := by
    have hle : 2 ^ (12 + 9 * left) ≤ 2 ^ 39 := Nat.pow_le_pow_right (by decide) (by omega)
    omega
  rw [BitVec.toNat_and, offsetMask, BitVec.toNat_ofNat, Nat.mod_eq_of_lt hlt,
    Nat.and_two_pow_sub_one_eq_mod]

/-- A block whose address is a multiple of its size. -/
theorem toNat_output {d : Word} {left n : ℕ} (h : left < 4)
    (hd : (d &&& ADDRESS &&& ~~~offsetMask left).toNat = 2 ^ (12 + 9 * left) * n) :
    (output d va left).toNat = 2 ^ (12 + 9 * left) * n + va.toNat % 2 ^ (12 + 9 * left) := by
  rw [output, BitVec.toNat_or, hd, toNat_offset h,
    Nat.two_pow_add_eq_or_of_lt (Nat.mod_lt _ (Nat.two_pow_pos _))]

end

end JungeyOs.A64
