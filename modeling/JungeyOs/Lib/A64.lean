import Mathlib.Data.BitVec
import Mathlib.Data.List.Nodup
import Mathlib.Logic.Function.Basic
import Mathlib.Logic.Relation
import Mathlib.Tactic.Abel
import Mathlib.Tactic.Ring

/-!
# A part of the A64 instruction set

The instructions that the assembly of a small kernel is made of, on one core: general registers,
a stack pointer for each exception level, system registers, and memory as bytes. The processor state
is a word in the format of SPSR, so that taking an exception saves it and `eret` puts it back.
Barriers, TLB maintenance and hints have no effect on this state.

Code is linked at one address and runs at another, `δ` bytes further on: labels are link addresses,
and whatever is encoded relative to the program counter is met `δ` bytes from them. An `adrp` takes
the page of a label, so `δ` is understood to be a number of whole pages where one is executed.

Results:
* `load_store_self`, `load_store_of_apart`: what a store does to loads.
* `load_storeAll`: words that were stored at offsets that are apart are all there.
* `at_link`: pieces of code that do not overlap stand where they were put.
* `Steps.ops`: code without branches runs through.
-/

namespace JungeyOs.A64

abbrev Word := BitVec 64

/-- Registers and exception levels are numbered from 0 on. -/
scoped instance neZeroRegister : NeZero 31 := ⟨Nat.succ_ne_zero 30⟩

scoped instance neZeroLevel : NeZero 4 := ⟨Nat.succ_ne_zero 3⟩

/-! ## Memory -/

abbrev Mem := Word → BitVec 8

/-- A little-endian doubleword. -/
def load (mem : Mem) (a : Word) : Word :=
  mem (a + 7) ++ mem (a + 6) ++ mem (a + 5) ++ mem (a + 4) ++ mem (a + 3) ++ mem (a + 2) ++
    mem (a + 1) ++ mem (a + 0)

def store (mem : Mem) (a v : Word) : Mem := fun b =>
  if (b - a).toNat < 8 then v.extractLsb' (8 * (b - a).toNat) 8 else mem b

/-- Two doublewords do not overlap. -/
def Apart (a b : Word) : Prop := 8 ≤ (a - b).toNat ∧ 8 ≤ (b - a).toNat

instance (a b : Word) : Decidable (Apart a b) := inferInstanceAs (Decidable (_ ∧ _))

section

variable {mem mem' : Mem} {a b c v : Word}

theorem Apart.symm (h : Apart a b) : Apart b a := ⟨h.2, h.1⟩

/-- Offsets that are apart are apart from any base. -/
theorem apart_add (base : Word) (h : Apart a b) : Apart (base + a) (base + b) := by
  rwa [Apart, add_sub_add_left_eq_sub, add_sub_add_left_eq_sub]

theorem load_congr (h : ∀ k : Word, k.toNat < 8 → mem (a + k) = mem' (a + k)) :
    load mem a = load mem' a := by
  simp only [load, h 0 (by decide), h 1 (by decide), h 2 (by decide), h 3 (by decide),
    h 4 (by decide), h 5 (by decide), h 6 (by decide), h 7 (by decide)]

theorem load_store_self : load (store mem a v) a = v := by
  have hbyte : ∀ (k : Word) (n : ℕ), k.toNat = n → n < 8 →
      store mem a v (a + k) = v.extractLsb' (8 * n) 8 := by
    rintro k n rfl hn
    rw [store, add_sub_cancel_left, if_pos hn]
  rw [load, hbyte 0 0 rfl (by decide), hbyte 1 1 rfl (by decide), hbyte 2 2 rfl (by decide),
    hbyte 3 3 rfl (by decide), hbyte 4 4 rfl (by decide), hbyte 5 5 rfl (by decide),
    hbyte 6 6 rfl (by decide), hbyte 7 7 rfl (by decide)]
  ext i hi
  simp only [BitVec.getElem_append, BitVec.getElem_extractLsb']
  split_ifs <;>
  · rw [← BitVec.getLsbD_eq_getElem hi]
    congr 1
    omega

theorem load_store_of_apart (h : Apart a b) : load (store mem b v) a = load mem a := by
  refine load_congr fun k hk => if_neg ?_
  obtain ⟨hab, hba⟩ := h
  have hsum : a + k - b = a - b + k := by abel
  rw [hsum, BitVec.toNat_add]
  have hneg : (a - b).toNat + (b - a).toNat = 2 ^ 64 := by
    rw [BitVec.toNat_sub, BitVec.toNat_sub] at *
    omega
  omega

/-- A byte is not among the `n` bytes from `base` on. -/
def Outside (base : Word) (n : ℕ) (b : Word) : Prop := n ≤ (b - base).toNat

/-- Two ranges have no byte in common. -/
def Disjoint (base : Word) (n : ℕ) (base' : Word) (n' : ℕ) : Prop :=
  ∀ b, Outside base n b ∨ Outside base' n' b

/-- A doubleword in a range on which two memories agree. -/
theorem load_of_agree {base d : Word} {n : ℕ} (hd : d.toNat + 8 ≤ n)
    (h : ∀ b, ¬Outside base n b → mem b = mem' b) : load mem (base + d) = load mem' (base + d) := by
  refine load_congr fun k hk => h _ ?_
  have hsub : base + d + k - base = d + k := by abel
  have hmod := Nat.mod_le (d.toNat + k.toNat) (2 ^ 64)
  rw [Outside, hsub, BitVec.toNat_add]
  omega

theorem store_of_outside (h : Outside a 8 b) : store mem a v b = mem b := if_neg (Nat.not_lt.mpr h)

/-- Doublewords at offsets from a base, one after the other. -/
def storeAll (mem : Mem) (base : Word) : List (Word × Word) → Mem
  | [] => mem
  | (d, v) :: slots => storeAll (store mem (base + d) v) base slots

variable {base : Word} {slots : List (Word × Word)}

theorem load_storeAll_of_apart (h : ∀ p ∈ slots, Apart a (base + p.1)) :
    load (storeAll mem base slots) a = load mem a := by
  induction slots generalizing mem with
  | nil => rfl
  | cons p slots ih =>
    rw [storeAll, ih fun q hq => h q (List.mem_cons_of_mem _ hq)]
    exact load_store_of_apart (h p List.mem_cons_self)

/-- Words that were stored at offsets that are apart are all there. -/
theorem load_storeAll (hslots : (slots.map Prod.fst).Pairwise Apart) {d : Word} (h : (d, v) ∈ slots) :
    load (storeAll mem base slots) (base + d) = v := by
  induction slots generalizing mem with
  | nil => cases h
  | cons p slots ih =>
    obtain ⟨hhead, htail⟩ := List.pairwise_cons.mp hslots
    rcases List.mem_cons.mp h with rfl | hmem
    · rw [storeAll, load_storeAll_of_apart, load_store_self]
      intro q hq
      exact apart_add base (hhead q.1 (List.mem_map_of_mem hq))
    · exact ih htail hmem

theorem storeAll_append (mem : Mem) (base : Word) (slots slots' : List (Word × Word)) :
    storeAll mem base (slots ++ slots') = storeAll (storeAll mem base slots) base slots' := by
  induction slots generalizing mem with
  | nil => rfl
  | cons p slots ih => exact ih _

/-- Bytes beyond all offsets stay what they are. -/
theorem storeAll_of_outside {n : ℕ} (hslots : ∀ p ∈ slots, p.1.toNat + 8 ≤ n)
    (h : Outside base n b) : storeAll mem base slots b = mem b := by
  induction slots generalizing mem with
  | nil => rfl
  | cons p slots ih =>
    rw [storeAll, ih fun q hq => hslots q (List.mem_cons_of_mem _ hq)]
    refine store_of_outside ?_
    have hp := hslots p List.mem_cons_self
    have hsub : b - (base + p.1) = b - base - p.1 := by abel
    rw [Outside] at h ⊢
    rw [hsub, BitVec.toNat_sub_of_le (BitVec.le_def.mpr (by omega))]
    omega

end

/-! ## The processor -/

/-- An operand that is a general register or the zero register. -/
inductive Reg
  | x (n : Fin 31)
  | xzr
  deriving DecidableEq

/-- The base of an address. -/
inductive Base
  | x (n : Fin 31)
  | sp
  deriving DecidableEq

inductive SysReg
  | elrEl1 | spsrEl1 | esrEl1 | farEl1 | spEl0 | currentEl | mpidrEl1 | vbarEl1
  | mairEl1 | tcrEl1 | ttbr0El1 | ttbr1El1 | sctlrEl1 | idAa64mmfr0El1
  | cnthctlEl2 | cntvoffEl2 | hcrEl2 | spsrEl2 | elrEl2
  deriving DecidableEq

/-- `pstate` is in the format of SPSR: bits 31 to 28 are N, Z, C and V, bits 9 to 6 are D, A, I and F,
bits 3 and 2 are the exception level, and bit 0 says whether the level's own stack pointer is
selected, or that of level 0. -/
structure State where
  x : Fin 31 → Word
  sp : Fin 4 → Word
  sys : SysReg → Word
  pstate : Word
  pc : Word
  mem : Mem

/-- The exception level of a processor state. -/
def elOf (p : Word) : Fin 4 := (p.extractLsb' 2 2).toFin

/-- The level whose stack pointer is selected in a processor state. -/
def bankOf (p : Word) : Fin 4 := if p.getLsbD 0 then elOf p else 0

/-- All but the flags of a processor state. -/
def mode (p : Word) : Word := p &&& ~~~0xF0000000

namespace State

def el (s : State) : Fin 4 := elOf s.pstate

/-- The level whose stack pointer is selected. -/
def bank (s : State) : Fin 4 := bankOf s.pstate

def get (s : State) : Reg → Word
  | .x n => s.x n
  | .xzr => 0

def set (s : State) (r : Reg) (v : Word) : State :=
  match r with
  | .x n => { s with x := Function.update s.x n v }
  | .xzr => s

def getBase (s : State) : Base → Word
  | .x n => s.x n
  | .sp => s.sp s.bank

def setBase (s : State) (r : Base) (v : Word) : State :=
  match r with
  | .x n => { s with x := Function.update s.x n v }
  | .sp => { s with sp := Function.update s.sp s.bank v }

@[simp] theorem get_x (s : State) (n : Fin 31) : s.get (.x n) = s.x n := rfl

@[simp] theorem get_xzr (s : State) : s.get .xzr = 0 := rfl

@[simp] theorem set_x (s : State) (n : Fin 31) (v : Word) :
    s.set (.x n) v = { s with x := Function.update s.x n v } := rfl

@[simp] theorem getBase_x (s : State) (n : Fin 31) : s.getBase (.x n) = s.x n := rfl

@[simp] theorem getBase_sp (s : State) : s.getBase .sp = s.sp (bankOf s.pstate) := rfl

@[simp] theorem setBase_x (s : State) (n : Fin 31) (v : Word) :
    s.setBase (.x n) v = { s with x := Function.update s.x n v } := rfl

@[simp] theorem setBase_sp (s : State) (v : Word) :
    s.setBase .sp v = { s with sp := Function.update s.sp (bankOf s.pstate) v } := rfl

/-- What `mrs` reads. -/
def getSys (s : State) : SysReg → Word
  | .spEl0 => s.sp 0
  | .currentEl => s.pstate &&& 0xC
  | r => s.sys r

def setSys (s : State) (r : SysReg) (v : Word) : State :=
  match r with
  | .spEl0 => { s with sp := Function.update s.sp 0 v }
  | r => { s with sys := Function.update s.sys r v }

/-- The flags of a comparison. -/
def compare (s : State) (a b : Word) : State :=
  let r := a - b
  let flags : BitVec 4 := BitVec.ofBool r.msb ++ BitVec.ofBool (a == b) ++ BitVec.ofBool (b ≤ a) ++
    BitVec.ofBool (a.msb != b.msb && r.msb != a.msb)
  { s with pstate := mode s.pstate ||| (flags.setWidth 64 <<< 28) }

section

variable (s : State) (a b : Word)

@[simp] theorem compare_x : (s.compare a b).x = s.x := rfl

@[simp] theorem compare_sp : (s.compare a b).sp = s.sp := rfl

@[simp] theorem compare_sys : (s.compare a b).sys = s.sys := rfl

@[simp] theorem compare_mem : (s.compare a b).mem = s.mem := rfl

@[simp] theorem compare_pc : (s.compare a b).pc = s.pc := rfl

end

end State

/-! ## Instructions -/

inductive Cond
  | ne | hs | lo
  deriving DecidableEq

def Cond.holds (p : Word) : Cond → Bool
  | .ne => !p.getLsbD 30
  | .hs => p.getLsbD 29
  | .lo => !p.getLsbD 29

/-- Instructions that go on to the next one. -/
inductive Op
  | mov (d n : Reg)
  /-- `mov` to or from the stack pointer -/
  | movSp (d n : Base)
  /-- `mov` and `movz` of a constant -/
  | movi (d : Reg) (imm : Word)
  | movk (d : Reg) (imm : BitVec 16) (lsl : ℕ)
  | add (d n m : Reg)
  | addi (d n : Base) (imm : Word)
  | subi (d n : Base) (imm : Word)
  | and (d n : Reg) (imm : Word)
  | orr (d n m : Reg)
  | orri (d n : Reg) (imm : Word)
  | lsl (d n : Reg) (k : ℕ)
  | lsr (d n : Reg) (k : ℕ)
  | cmp (n m : Reg)
  | cmpi (n : Reg) (imm : Word)
  | csel (d n m : Reg) (c : Cond)
  | ldr (t : Reg) (n : Base) (offset : Word)
  | ldp (t u : Reg) (n : Base) (offset : Word)
  | str (t : Reg) (n : Base) (offset : Word)
  | stp (t u : Reg) (n : Base) (offset : Word)
  /-- `str t, [n], #imm` -/
  | strPost (t : Reg) (n : Base) (imm : Word)
  /-- `ldr d, =label`: the link address, from the literal pool -/
  | ldrLit (d : Reg) (label : Word)
  | adr (d : Reg) (label : Word)
  | adrp (d : Reg) (label : Word)
  | mrs (d : Reg) (r : SysReg)
  | msr (r : SysReg) (n : Reg)
  | daifset (imm : BitVec 4)
  | daifclr (imm : BitVec 4)
  | isb | dsb | tlbi | wfe

inductive Instr
  | op (o : Op)
  | b (label : Word)
  | bcond (c : Cond) (label : Word)
  | cbz (t : Reg) (label : Word)
  | bl (label : Word)
  | blr (n : Reg)
  | br (n : Reg)
  | ret
  | eret

/-- Conditions after a comparison. -/
@[simp] theorem holds_compare (s : State) (a b : Word) (c : Cond) :
    c.holds (s.compare a b).pstate = match c with
      | .ne => decide (a ≠ b)
      | .hs => decide (b ≤ a)
      | .lo => decide (a < b) := by
  have hflags : ∀ n z c v : Bool,
      (BitVec.ofBool n ++ BitVec.ofBool z ++ BitVec.ofBool c ++ BitVec.ofBool v)[2] = z ∧
        (BitVec.ofBool n ++ BitVec.ofBool z ++ BitVec.ofBool c ++ BitVec.ofBool v)[1] = c := by
    decide
  have hlo : (!decide (b ≤ a)) = decide (a < b) := by
    simp only [← decide_not, BitVec.not_le]
  have hne : (a == b) = decide (a = b) := by
    by_cases h : a = b <;> simp [h]
  cases c <;> simp [Cond.holds, State.compare, mode, hflags, hlo, hne]

/-- A comparison changes nothing but the flags. -/
@[simp] theorem mode_compare (s : State) (a b : Word) : mode (s.compare a b).pstate = mode s.pstate := by
  have hflags : ∀ f : BitVec 4, (f.setWidth 64 <<< 28) &&& ~~~(0xF0000000 : Word) = 0 := by decide
  rw [mode, mode, State.compare, mode, BitVec.and_or_distrib_right, hflags, BitVec.and_assoc,
    BitVec.and_self]
  exact BitVec.or_zero ..

theorem elOf_mode (p : Word) : elOf (mode p) = elOf p := by
  rw [elOf, elOf, mode, BitVec.extractLsb'_and]
  exact congrArg BitVec.toFin (BitVec.and_allOnes ..)

theorem bankOf_mode (p : Word) : bankOf (mode p) = bankOf p := by
  have hsel : (mode p).getLsbD 0 = p.getLsbD 0 := by simp [mode]
  rw [bankOf, bankOf, elOf_mode, hsel]

/-- An instruction that does not branch, in code that runs `δ` bytes from where it is linked. -/
def Op.exec (δ : Word) (s : State) : Op → State
  | .mov d n => s.set d (s.get n)
  | .movSp d n => s.setBase d (s.getBase n)
  | .movi d imm => s.set d imm
  | .movk d imm k => s.set d ((s.get d &&& ~~~(0xFFFF#64 <<< k)) ||| (imm.setWidth 64 <<< k))
  | .add d n m => s.set d (s.get n + s.get m)
  | .addi d n imm => s.setBase d (s.getBase n + imm)
  | .subi d n imm => s.setBase d (s.getBase n - imm)
  | .and d n imm => s.set d (s.get n &&& imm)
  | .orr d n m => s.set d (s.get n ||| s.get m)
  | .orri d n imm => s.set d (s.get n ||| imm)
  | .lsl d n k => s.set d (s.get n <<< k)
  | .lsr d n k => s.set d (s.get n >>> k)
  | .cmp n m => s.compare (s.get n) (s.get m)
  | .cmpi n imm => s.compare (s.get n) imm
  | .csel d n m c => s.set d (if c.holds s.pstate then s.get n else s.get m)
  | .ldr t n offset => s.set t (load s.mem (s.getBase n + offset))
  | .ldp t u n offset =>
    let base := s.getBase n
    (s.set t (load s.mem (base + offset))).set u (load s.mem (base + (offset + 8)))
  | .str t n offset => { s with mem := store s.mem (s.getBase n + offset) (s.get t) }
  | .stp t u n offset =>
    let base := s.getBase n
    { s with
      mem := store (store s.mem (base + offset) (s.get t)) (base + (offset + 8)) (s.get u) }
  | .strPost t n imm =>
    { s with mem := store s.mem (s.getBase n) (s.get t) }.setBase n (s.getBase n + imm)
  | .ldrLit d label => s.set d label
  | .adr d label => s.set d (label + δ)
  | .adrp d label => s.set d ((label &&& ~~~0xFFF) + δ)
  | .mrs d r => s.set d (s.getSys r)
  | .msr r n => s.setSys r (s.get n)
  | .daifset imm => { s with pstate := s.pstate ||| (imm.setWidth 64 <<< 6) }
  | .daifclr imm => { s with pstate := s.pstate &&& ~~~(imm.setWidth 64 <<< 6) }
  | .isb => s
  | .dsb => s
  | .tlbi => s
  | .wfe => s

/-- The link and state registers of the current level, for `eret`. -/
def State.elr (s : State) : Word := s.sys (if s.el = 2 then .elrEl2 else .elrEl1)

def State.spsr (s : State) : Word := s.sys (if s.el = 2 then .spsrEl2 else .spsrEl1)

def Instr.exec (δ : Word) (s : State) : Instr → State
  | .op o => { o.exec δ s with pc := s.pc + 4 }
  | .b label => { s with pc := label + δ }
  | .bcond c label => { s with pc := if c.holds s.pstate then label + δ else s.pc + 4 }
  | .cbz t label => { s with pc := if s.get t = 0 then label + δ else s.pc + 4 }
  | .bl label => { s.set (.x 30) (s.pc + 4) with pc := label + δ }
  | .blr n => { s.set (.x 30) (s.pc + 4) with pc := s.get n }
  | .br n => { s with pc := s.get n }
  | .ret => { s with pc := s.x 30 }
  | .eret => { s with pc := s.elr, pstate := s.spsr }

/-- Taking an exception to level 1: the state is saved, all interrupts are masked, and the vector at
`offset` in the table is entered on the stack of level 1. The syndrome and the faulting address are
what the processor has to say about the exception. -/
def State.takeException (s : State) (offset esr far : Word) : State :=
  let sys := Function.update (Function.update s.sys .elrEl1 s.pc) .spsrEl1 s.pstate
  { s with
    sys := Function.update (Function.update sys .esrEl1 esr) .farEl1 far
    pstate := (s.pstate &&& 0xF0000000) ||| 0x3C5
    pc := s.sys .vbarEl1 + offset }

theorem elOf_of_bankOf {p : Word} (h : bankOf p = 1) : elOf p = 1 := by
  unfold bankOf at h
  split_ifs at h
  · exact h
  · cases h

/-- An exception is taken to level 1, on its stack. -/
theorem bankOf_taken (p : Word) : bankOf ((p &&& 0xF0000000) ||| 0x3C5) = 1 := by
  have hel : ((p &&& 0xF0000000) ||| 0x3C5).extractLsb' 2 2 = 1#2 := by
    rw [BitVec.extractLsb'_or, BitVec.extractLsb'_and]
    exact (congrArg (· ||| 1#2) (BitVec.and_zero ..)).trans (BitVec.zero_or ..)
  have hsel : ((p &&& 0xF0000000) ||| 0x3C5).getLsbD 0 = true := by simp
  rw [bankOf, if_pos hsel, elOf, hel]
  rfl

/-! ## Running code -/

/-- The code in memory, by link address. -/
abbrev Code := Word → Option Instr

def step (code : Code) (δ : Word) (s : State) : Option State :=
  (code (s.pc - δ)).map (·.exec δ s)

/-- Some number of steps. -/
def Steps (code : Code) (δ : Word) : State → State → Prop :=
  Relation.ReflTransGen fun s t => step code δ s = some t

/-- The instructions stand at address `a`. -/
def At (code : Code) (a : Word) : List Instr → Prop
  | [] => True
  | i :: is => code a = some i ∧ At code (a + 4) is

def execs (δ : Word) (ops : List Op) (s : State) : State := ops.foldl (Op.exec δ) s

/-- Pieces of code, each from its address on. -/
def link (pieces : List (Word × List Instr)) : Code := fun a =>
  pieces.findSome? fun p => if (a - p.1).toNat % 4 = 0 then p.2[(a - p.1).toNat / 4]? else none

section

variable {code : Code} {δ a : Word} {s t u : State}

@[refl] theorem Steps.refl (s : State) : Steps code δ s s := Relation.ReflTransGen.refl

theorem Steps.trans (h : Steps code δ s t) (h' : Steps code δ t u) : Steps code δ s u :=
  Relation.ReflTransGen.trans h h'

/-- The instruction where the program counter stands. -/
theorem Steps.head {i : Instr} (hi : code a = some i) (hpc : s.pc = a + δ)
    (h : Steps code δ (i.exec δ s) t) : Steps code δ s t := by
  refine Relation.ReflTransGen.head ?_ h
  rw [step, hpc, add_sub_cancel_right, hi]
  rfl

/-- The next instruction is reached by steps that were made already. -/
theorem Steps.last {i : Instr} (h : Steps code δ s t) (hi : code a = some i) (hpc : t.pc = a + δ) :
    Steps code δ s (i.exec δ t) :=
  h.trans (.head hi hpc (.refl _))

theorem At.tail {i : Instr} {is : List Instr} (h : At code a (i :: is)) : At code (a + 4) is := h.2

/-- `n` instructions on. -/
def skip (a : Word) (n : ℕ) : Word := a + BitVec.ofNat 64 (4 * n)

@[simp] theorem skip_zero (a : Word) : skip a 0 = a := BitVec.add_zero a

theorem skip_add_four (a : Word) (n : ℕ) : skip a n + 4 = skip a (n + 1) := by
  have hofNat : BitVec.ofNat 64 (4 * (n + 1)) = BitVec.ofNat 64 (4 * n) + 4 := BitVec.ofNat_add ..
  rw [skip, skip, hofNat, add_assoc]

theorem skip_succ (a : Word) (n : ℕ) : skip (a + 4) n = skip a (n + 1) := by
  rw [← skip_add_four, skip, skip]
  ring

theorem skip_skip (a : Word) (m n : ℕ) : skip (skip a m) n = skip a (m + n) := by
  rw [skip, skip, skip, Nat.mul_add, BitVec.ofNat_add, add_assoc]

theorem at_append {is js : List Instr} :
    At code a (is ++ js) ↔ At code a is ∧ At code (skip a is.length) js := by
  induction is generalizing a with
  | nil => simp [At]
  | cons i is ih =>
    rw [List.cons_append]
    simp only [At]
    rw [ih, and_assoc, skip_succ, List.length_cons]

theorem at_of_getElem {is : List Instr} (h : ∀ n (hn : n < is.length), code (skip a n) = some is[n]) :
    At code a is := by
  induction is generalizing a with
  | nil => trivial
  | cons i is ih =>
    refine ⟨?_, ih fun n hn => ?_⟩
    · simpa using h 0 (Nat.zero_lt_succ _)
    · rw [skip_succ]
      exact h (n + 1) (Nat.succ_lt_succ hn)

/-- Pieces that do not overlap stand where they were put. -/
theorem at_link {pieces : List (Word × List Instr)} {is : List Instr}
    (hclear : (pieces.map fun p => (p.1, p.2.length)).Pairwise fun p q =>
      ∀ n < q.2, p.2 ≤ (skip q.1 n - p.1).toNat / 4)
    (hlen : 4 * is.length < 2 ^ 64) (h : (a, is) ∈ pieces) : At (link pieces) a is := by
  refine at_of_getElem fun n hn => ?_
  induction pieces with
  | nil => cases h
  | cons p pieces ih =>
    rw [List.map_cons] at hclear
    obtain ⟨hhead, htail⟩ := List.pairwise_cons.mp hclear
    rw [link, List.findSome?_cons]
    rcases List.mem_cons.mp h with rfl | hmem
    · have hoff : (skip a n - a).toNat = 4 * n := by
        rw [skip, add_sub_cancel_left, BitVec.toNat_ofNat, Nat.mod_eq_of_lt (by omega)]
      simp [hoff, hn]
    · have hnone : p.2[(skip a n - p.1).toNat / 4]? = none :=
        List.getElem?_eq_none (hhead (a, is.length) (List.mem_map_of_mem hmem) n hn)
      rw [hnone, ite_self]
      exact ih htail hmem

theorem execs_append (ops ops' : List Op) :
    execs δ (ops ++ ops') s = execs δ ops' (execs δ ops s) := List.foldl_append ..

theorem set_pc (r : Reg) (v p : Word) :
    { s with pc := p }.set r v = { s.set r v with pc := p } := by
  cases r <;> rfl

theorem setBase_pc (r : Base) (v p : Word) :
    { s with pc := p }.setBase r v = { s.setBase r v with pc := p } := by
  cases r <;> rfl

theorem setSys_pc (r : SysReg) (v p : Word) :
    { s with pc := p }.setSys r v = { s.setSys r v with pc := p } := by
  cases r <;> rfl

theorem get_pc (r : Reg) (p : Word) : { s with pc := p }.get r = s.get r := by
  cases r <;> rfl

theorem getBase_pc (r : Base) (p : Word) : { s with pc := p }.getBase r = s.getBase r := by
  cases r <;> rfl

theorem getSys_pc (r : SysReg) (p : Word) : { s with pc := p }.getSys r = s.getSys r := by
  cases r <;> rfl

/-- Where the code runs does not matter to an instruction that does not branch. -/
theorem Op.exec_pc (o : Op) (p : Word) :
    o.exec δ { s with pc := p } = { o.exec δ s with pc := p } := by
  cases o with
  | strPost t n imm =>
    simp only [Op.exec, get_pc, getBase_pc]
    cases n <;> rfl
  | _ =>
    simp only [Op.exec, get_pc, getBase_pc, getSys_pc, set_pc, setBase_pc, setSys_pc]
    try rfl

theorem execs_pc (ops : List Op) (p : Word) :
    execs δ ops { s with pc := p } = { execs δ ops s with pc := p } := by
  induction ops generalizing s with
  | nil => rfl
  | cons o ops ih => rw [execs, List.foldl_cons, Op.exec_pc]; exact ih

/-! ## Runs of stores and loads -/

/-- What an instruction stores at which offsets from a base, if that is all that it does. -/
def Op.stores (r : Base) : Op → Option (List (Word × Reg))
  | .str t n d => if n = r then some [(d, t)] else none
  | .stp t u n d => if n = r then some [(d, t), (d + 8, u)] else none
  | _ => none

def storesOf (r : Base) : List Op → Option (List (Word × Reg))
  | [] => some []
  | o :: ops => (o.stores r).bind fun slots => (storesOf r ops).map (slots ++ ·)

/-- Which registers an instruction loads from which offsets from a base, if that is all. -/
def Op.loads (r : Base) : Op → Option (List (Word × Fin 31))
  | .ldr (.x t) n d => if n = r then some [(d, t)] else none
  | .ldp (.x t) (.x u) n d => if n = r then some [(d, t), (d + 8, u)] else none
  | _ => none

def loadsOf (r : Base) : List Op → Option (List (Word × Fin 31))
  | [] => some []
  | o :: ops => (o.loads r).bind fun slots => (loadsOf r ops).map (slots ++ ·)

/-- Registers loaded from offsets, one after the other. -/
def loadAll (mem : Mem) (base : Word) : (Fin 31 → Word) → List (Word × Fin 31) → Fin 31 → Word
  | x, [] => x
  | x, (d, t) :: slots => loadAll mem base (Function.update x t (load mem (base + d))) slots

theorem loadAll_append {mem : Mem} {base : Word} {x : Fin 31 → Word}
    {slots slots' : List (Word × Fin 31)} :
    loadAll mem base x (slots ++ slots') = loadAll mem base (loadAll mem base x slots) slots' := by
  induction slots generalizing x with
  | nil => rfl
  | cons p slots ih => exact ih

theorem loadAll_of_notMem {mem : Mem} {base : Word} {x : Fin 31 → Word}
    {slots : List (Word × Fin 31)} {i : Fin 31} (h : i ∉ slots.map Prod.snd) :
    loadAll mem base x slots i = x i := by
  induction slots generalizing x with
  | nil => rfl
  | cons p slots ih =>
    rw [List.map_cons, List.mem_cons, not_or] at h
    rw [loadAll, ih h.2, Function.update_of_ne h.1]

/-- Each register that is loaded once has what it was loaded with. -/
theorem loadAll_of_mem {mem : Mem} {base : Word} {x : Fin 31 → Word}
    {slots : List (Word × Fin 31)} {d : Word} {i : Fin 31} (hslots : (slots.map Prod.snd).Nodup)
    (h : (d, i) ∈ slots) : loadAll mem base x slots i = load mem (base + d) := by
  induction slots generalizing x with
  | nil => cases h
  | cons p slots ih =>
    obtain ⟨hhead, htail⟩ := List.nodup_cons.mp hslots
    rcases List.mem_cons.mp h with rfl | hmem
    · rw [loadAll, loadAll_of_notMem hhead, Function.update_self]
    · exact ih htail hmem

/-- A run of stores. -/
theorem execs_stores {r : Base} {ops : List Op} {slots : List (Word × Reg)}
    (h : storesOf r ops = some slots) :
    execs δ ops s =
      { s with mem := storeAll s.mem (s.getBase r) (slots.map fun p => (p.1, s.get p.2)) } := by
  induction ops generalizing s slots with
  | nil =>
    cases h
    rfl
  | cons o ops ih =>
    obtain ⟨first, ho, h⟩ := Option.bind_eq_some_iff.mp h
    obtain ⟨rest, hrest, rfl⟩ := Option.map_eq_some_iff.mp h
    have hone : o.exec δ s =
        { s with mem := storeAll s.mem (s.getBase r) (first.map fun p => (p.1, s.get p.2)) } := by
      cases o with
      | str t n d =>
        simp only [Op.stores] at ho
        split_ifs at ho with hn
        cases ho
        rw [← hn]
        rfl
      | stp t u n d =>
        simp only [Op.stores] at ho
        split_ifs at ho with hn
        cases ho
        rw [← hn]
        rfl
      | _ => cases ho
    have hget : ∀ (m : Mem) (t : Reg), { s with mem := m }.get t = s.get t := fun m t => by
      cases t <;> rfl
    have hbase : ∀ m : Mem, { s with mem := m }.getBase r = s.getBase r := fun m => by
      cases r <;> rfl
    rw [execs, List.foldl_cons, hone]
    refine (ih hrest).trans ?_
    simp only [hget, hbase, List.map_append, storeAll_append]

/-- A run of loads that leaves its base alone. -/
theorem execs_loads {r : Base} {ops : List Op} {slots : List (Word × Fin 31)}
    (h : loadsOf r ops = some slots) (hr : ∀ p ∈ slots, r ≠ .x p.2) :
    execs δ ops s = { s with x := loadAll s.mem (s.getBase r) s.x slots } := by
  induction ops generalizing s slots with
  | nil =>
    cases h
    rfl
  | cons o ops ih =>
    obtain ⟨first, ho, h⟩ := Option.bind_eq_some_iff.mp h
    obtain ⟨rest, hrest, rfl⟩ := Option.map_eq_some_iff.mp h
    have hone : o.exec δ s = { s with x := loadAll s.mem (s.getBase r) s.x first } := by
      cases o with
      | ldr t n d =>
        cases t with
        | xzr => cases ho
        | x t =>
          simp only [Op.loads] at ho
          split_ifs at ho with hn
          cases ho
          rw [← hn]
          rfl
      | ldp t u n d =>
        cases t with
        | xzr => cases ho
        | x t =>
          cases u with
          | xzr => cases ho
          | x u =>
            simp only [Op.loads] at ho
            split_ifs at ho with hn
            cases ho
            rw [← hn]
            rfl
      | _ => cases ho
    have hbase : { s with x := loadAll s.mem (s.getBase r) s.x first }.getBase r = s.getBase r := by
      cases r with
      | sp => rfl
      | x n =>
        refine loadAll_of_notMem fun hn => ?_
        obtain ⟨p, hp, rfl⟩ := List.mem_map.mp hn
        exact hr p (List.mem_append_left _ hp) rfl
    rw [execs, List.foldl_cons, hone]
    refine (ih hrest fun p hp => hr p (List.mem_append_right _ hp)).trans ?_
    rw [hbase, loadAll_append]

/-- Instructions of which none changes the processor state. -/
theorem execs_pstate {ops : List Op} (h : ∀ o ∈ ops, ∀ s, (o.exec δ s).pstate = s.pstate) (s : State) :
    (execs δ ops s).pstate = s.pstate := by
  induction ops generalizing s with
  | nil => rfl
  | cons o ops ih =>
    exact (ih (fun o ho => h o (List.mem_cons_of_mem _ ho)) _).trans (h o List.mem_cons_self s)

/-- Code without branches runs through. -/
theorem Steps.ops {ops : List Op} (h : At code a (ops.map .op)) (hpc : s.pc = a + δ) :
    Steps code δ s { execs δ ops s with pc := skip a ops.length + δ } := by
  induction ops generalizing a s with
  | nil =>
    rw [List.length_nil, skip_zero, ← hpc]
    rfl
  | cons o ops ih =>
    obtain ⟨hi, htail⟩ := h
    have hnext : (Instr.op o).exec δ s = { o.exec δ s with pc := a + 4 + δ } := by
      rw [Instr.exec, hpc]
      congr 1
      ring
    refine Steps.head hi hpc ?_
    rw [hnext]
    refine (ih htail rfl).trans ?_
    rw [execs_pc, skip_succ]
    rfl

/-- A call of a function without branches that leaves the link register alone. -/
theorem Steps.call {p f : Word} {ops : List Op} (hbl : code p = some (.bl f))
    (hf : At code f (ops.map .op ++ [.ret])) (hpc : s.pc = p + δ)
    (h30 : ∀ s : State, (execs δ ops s).x 30 = s.x 30) :
    Steps code δ s
      { execs δ ops (s.set (.x 30) (p + δ + 4)) with pc := p + δ + 4 } := by
  obtain ⟨hops, hret, -⟩ := at_append.mp hf
  rw [List.length_map] at hret
  have hrun := ((Steps.last (.refl s) hbl hpc).trans (.ops hops rfl)).last hret rfl
  have hbl' : (Instr.bl f).exec δ s = { s.set (.x 30) (p + δ + 4) with pc := f + δ } := by
    rw [Instr.exec, hpc]
  have hx30 : (execs δ ops (s.set (.x 30) (p + δ + 4))).x 30 = p + δ + 4 := by
    rw [h30]
    simp only [State.set_x, Function.update_self]
  rw [hbl', execs_pc] at hrun
  rw [Instr.exec] at hrun
  dsimp only at hrun
  rwa [hx30] at hrun

end

end JungeyOs.A64
