import JungeyOs.Lib.Translation
import Mathlib.Tactic.FinCases

/-!
# From the boot loader to `kernel_main`

Model of `kernel/src/boot.s`. The code is linked in the higher half (`kernel/linker.ld`) and entered at
physical addresses, `PHYS_OFFSET` below; `_high_entry` and `_secondary_high` are the first code that
runs where it is linked.

Results:
* `walk_tables`: what the two tables of the kernel translate.
* `lower`: level 1 is reached from level 2, and kept at level 1.
* `zero_loop`: `.bss` is zeroed.
* `tables_storeAll`: the tables are as `.Lbuild_tables` has stored them.
-/

namespace JungeyOs.Boot

open A64

/-- `PHYS_OFFSET` (`linker.ld`, line 15). -/
def PHYS_OFFSET : Word := 0xFFFF000000000000

/-- From link addresses to physical ones. -/
abbrev δ : Word := -PHYS_OFFSET

/-- Link addresses. -/
structure Symbols where
  entry : Word
  highEntry : Word
  secondaryStart : Word
  secondaryHigh : Word
  kernelMain : Word
  secondaryMain : Word
  stackTop : Word
  bssStart : Word
  bssEnd : Word
  l0Table : Word
  l1Table : Word

namespace Symbols

variable (y : Symbols)

/-- `.Lpark`, `.Lprimary`, `.Lat_el1`, `.Lbss_loop`, `.Lbss_done`, `.Lbuild_tables` and
`__enable_mmu`. -/
def park : Word := skip y.entry 4
def primary : Word := skip y.entry 6
def atEl1 : Word := skip y.entry 24
def bssLoop : Word := skip y.entry 31
def bssDone : Word := skip y.entry 35
def buildTables : Word := skip y.entry 39
def enableMmu : Word := skip y.entry 58

/-- `.Lsec_el1`. -/
def secEl1 : Word := skip y.secondaryStart 21

end Symbols

/-- The address of a label, in two instructions (`adrp`, `add`). -/
def address (d : Fin 31) (label : Word) : List Op :=
  [.adrp (.x d) label, .addi (.x d) (.x d) (label &&& 0xFFF)]

/-- The settings of level 1 from level 2 (lines 49–64 and 233–246). -/
def el2Ops (at_el1 : Word) : List Op := [
  .mrs (.x 2) .cnthctlEl2,
  .orri (.x 2) (.x 2) 3,
  .msr .cnthctlEl2 (.x 2),
  .msr .cntvoffEl2 .xzr,
  .movi (.x 2) 0x80000000,
  .msr .hcrEl2 (.x 2),
  .movi (.x 2) 0x0800,
  .movk (.x 2) 0x30d0 16,
  .msr .sctlrEl1 (.x 2),
  .movi (.x 2) 0x3c5,
  .msr .spsrEl2 (.x 2),
  .adr (.x 2) at_el1,
  .msr .elrEl2 (.x 2)]

/-- The test for level 2 (lines 43–45 and 228–230). -/
def levelOps (d : Fin 31) : List Op :=
  [.mrs (.x d) .currentEl, .lsr (.x d) (.x d) 2, .cmpi (.x d) 2]

/-- The way to level 1, if the core is not there (lines 43–65 and 229–247). -/
def lowerCode (d : Fin 31) (label : Word) : List Instr :=
  (levelOps d).map .op ++ [.bcond .ne label] ++ (el2Ops label).map .op ++ [.eret]

/-- `.Lbuild_tables` (lines 118–141). -/
def buildTablesOps (y : Symbols) : List Op := [
  .adrp (.x 0) y.l0Table,
  .adrp (.x 1) y.l1Table,
  .orri (.x 2) (.x 1) 3,
  .str (.x 2) (.x 0) 0,
  .movi (.x 2) 0x401,
  .movk (.x 2) 0x0060 48,
  .str (.x 2) (.x 1) 0,
  .movi (.x 3) 0x705,
  .movk (.x 3) 0x0040 48,
  .movi (.x 4) 0x40000000,
  .orr (.x 2) (.x 3) (.x 4),
  .str (.x 2) (.x 1) 8,
  .movi (.x 4) 0x80000000,
  .orr (.x 2) (.x 3) (.x 4),
  .str (.x 2) (.x 1) 16,
  .movi (.x 4) 0xC0000000,
  .orr (.x 2) (.x 3) (.x 4),
  .str (.x 2) (.x 1) 24]

/-- `__enable_mmu` (lines 147–177). -/
def enableMmuOps (y : Symbols) : List Op := [
  .movi (.x 0) 0xff00,
  .msr .mairEl1 (.x 0),
  .movi (.x 0) 0x3510,
  .movk (.x 0) 0xb510 16,
  .mrs (.x 1) .idAa64mmfr0El1,
  .and (.x 1) (.x 1) 0xf,
  .movi (.x 2) 5,
  .cmp (.x 1) (.x 2),
  .csel (.x 1) (.x 1) (.x 2) .lo,
  .lsl (.x 1) (.x 1) 32,
  .orr (.x 0) (.x 0) (.x 1),
  .msr .tcrEl1 (.x 0),
  .adrp (.x 0) y.l0Table,
  .msr .ttbr0El1 (.x 0),
  .msr .ttbr1El1 (.x 0),
  .isb,
  .tlbi,
  .dsb,
  .isb,
  .mrs (.x 0) .sctlrEl1,
  .orri (.x 0) (.x 0) (1 <<< 0),
  .orri (.x 0) (.x 0) (1 <<< 2),
  .orri (.x 0) (.x 0) (1 <<< 12),
  .msr .sctlrEl1 (.x 0),
  .isb]

/-- From `_entry` on (lines 33–179). -/
def entryCode (y : Symbols) : List Instr :=
  ([.mov (.x 19) (.x 0), .mrs (.x 1) .mpidrEl1, .and (.x 1) (.x 1) 0xff] : List Op).map .op ++
  [.cbz (.x 1) y.primary] ++
  -- `.Lpark`
  [.op .wfe, .b y.park] ++
  -- `.Lprimary`
  lowerCode 1 y.atEl1 ++
  -- `.Lat_el1`
  (address 1 y.stackTop ++ ([.movSp .sp (.x 1)] : List Op) ++ address 1 y.bssStart ++
    address 2 y.bssEnd).map .op ++
  -- `.Lbss_loop`
  [.op (.cmp (.x 1) (.x 2)), .bcond .hs y.bssDone, .op (.strPost .xzr (.x 1) 8), .b y.bssLoop] ++
  -- `.Lbss_done`
  [.bl y.buildTables, .bl y.enableMmu, .op (.ldrLit (.x 0) y.highEntry), .br (.x 0)] ++
  ((buildTablesOps y).map .op ++ [.ret]) ++
  ((enableMmuOps y).map .op ++ [.ret])

/-- The code of `_high_entry` (lines 186–199). -/
def highOps (y : Symbols) : List Op := [
  .ldrLit (.x 1) y.stackTop,
  .movSp .sp (.x 1),
  .mrs (.x 0) .tcrEl1,
  .orri (.x 0) (.x 0) (1 <<< 7),
  .msr .tcrEl1 (.x 0),
  .isb,
  .tlbi,
  .dsb,
  .isb,
  .mov (.x 0) (.x 19)]

/-- From `_high_entry` on (lines 186–204). -/
def highCode (y : Symbols) : List Instr :=
  (highOps y).map .op ++ [.bl y.kernelMain, .op .wfe, .b (skip y.highEntry 11)]

/-- The first instructions of `_secondary_start` (lines 225–227). -/
def secondaryOps : List Op := [
  .mov (.x 19) (.x 0),
  .ldr (.x 1) (.x 19) 0,
  .movSp .sp (.x 1)]

/-- `.Lsec_el1` (lines 250–252). -/
def secEl1Ops (y : Symbols) : List Op := [
  .adrp (.x 1) y.stackTop,
  .ldr (.x 1) (.x 19) 0,
  .movSp .sp (.x 1)]

/-- From `_secondary_start` on (lines 225–257). -/
def secondaryCode (y : Symbols) : List Instr :=
  secondaryOps.map .op ++ lowerCode 2 y.secEl1 ++ (secEl1Ops y).map .op ++
  [.bl y.enableMmu, .op (.ldrLit (.x 0) y.secondaryHigh), .br (.x 0)]

/-- The code of `_secondary_high` (lines 261–265). -/
def secondaryHighOps : List Op := [
  .movi (.x 2) PHYS_OFFSET,
  .ldr (.x 1) (.x 19) 0,
  .add (.x 1) (.x 1) (.x 2),
  .movSp .sp (.x 1),
  .add (.x 0) (.x 19) (.x 2)]

/-- From `_secondary_high` on (lines 260–269). -/
def secondaryHighCode (y : Symbols) : List Instr :=
  secondaryHighOps.map .op ++ [.bl y.secondaryMain, .op .wfe, .b (skip y.secondaryHigh 6)]

/-- What the linker provides. -/
structure Linked (code : Code) (y : Symbols) : Prop where
  entry : At code y.entry (entryCode y)
  high : At code y.highEntry (highCode y)
  secondary : At code y.secondaryStart (secondaryCode y)
  secondaryHigh : At code y.secondaryHigh (secondaryHighCode y)
  /-- the tables are pages, one behind the other, in `.bss` -/
  align : 4096 ∣ (y.l0Table + δ).toNat
  low : (y.l0Table + δ).toNat + 8192 ≤ 2 ^ 48
  next : y.l1Table = y.l0Table + 4096
  within : (y.l0Table - y.bssStart).toNat + 8192 ≤ (y.bssEnd - y.bssStart).toNat
  /-- `.bss` begins at a page and ends at a multiple of 16 -/
  bss : (y.bssStart + δ).toNat ≤ (y.bssEnd + δ).toNat
  dvd : 8 ∣ (y.bssEnd - y.bssStart).toNat

/-! ## Translation tables -/

/-- The descriptor for the GiB `n` (lines 124–139). -/
def descriptor (n : ℕ) : Word :=
  if n = 0 then 0x0060000000000401 else 0x0040000000000705 ||| BitVec.ofNat 64 (2 ^ 30 * n)

/-- The tables map the low 4 GiB. -/
structure Tables (mem : Mem) (l0 : Word) : Prop where
  first : load mem l0 = (l0 + 4096) ||| 3
  others : ∀ k : Fin 512, k ≠ 0 → load mem (l0 + BitVec.ofNat 64 (8 * k)) = 0
  block : ∀ k : Fin 4, load mem (l0 + 4096 + BitVec.ofNat 64 (8 * k)) = descriptor k
  empty : ∀ k : Fin 512, 4 ≤ k.val → load mem (l0 + 4096 + BitVec.ofNat 64 (8 * k)) = 0

section

variable {mem : Mem} {l0 va : Word}

/-- An entry by its number. -/
theorem eight_mul_field (va : Word) (left : ℕ) :
    8 * field va left = BitVec.ofNat 64 (8 * (va.toNat / 2 ^ (12 + 9 * left) % 512)) := by
  apply BitVec.eq_of_toNat_eq
  rw [BitVec.toNat_mul, toNat_field, BitVec.toNat_ofNat]
  rfl

theorem descriptor_spec : ∀ k < 4, descriptor k &&& 3 = 1 ∧ accessed (descriptor k) = true ∧
    (descriptor k &&& ADDRESS &&& ~~~offsetMask 2).toNat = 2 ^ (12 + 9 * 2) * k := by
  decide

theorem or_land_self (a b : Word) : (a ||| b) &&& b = b := by
  ext i hi
  simpa using Or.inr

/-- The walk finds the low 4 GiB, each address at itself, and nothing else. -/
theorem walk_tables (h : Tables mem l0) (hpage : (l0 + 4096) &&& ADDRESS = l0 + 4096) :
    walkFrom mem va 3 l0 = if va.toNat % 2 ^ 48 < 2 ^ 32 then
      some (BitVec.ofNat 64 (va.toNat % 2 ^ 48), descriptor (va.toNat % 2 ^ 48 / 2 ^ 30)) else none := by
  have hfield : ∀ left, va.toNat / 2 ^ (12 + 9 * left) % 512 < 512 := fun left =>
    Nat.mod_lt _ (by decide)
  rw [walkFrom, eight_mul_field]
  by_cases h0 : va.toNat / 2 ^ (12 + 9 * 3) % 512 = 0
  · rw [h0]
    have hfirst : load mem (l0 + BitVec.ofNat 64 (8 * 0)) = (l0 + 4096) ||| 3 := by
      rw [← h.first]
      congr 1
      exact BitVec.add_zero l0
    have hvalid : ((l0 + 4096) ||| 3) &&& 3 = 3 := or_land_self ..
    have htable : ((l0 + 4096) ||| 3) &&& ADDRESS = l0 + 4096 := by
      rw [BitVec.and_or_distrib_right, hpage]
      exact BitVec.or_zero ..
    rw [hfirst, if_pos hvalid, htable, walkFrom, eight_mul_field]
    by_cases h1 : va.toNat / 2 ^ (12 + 9 * 2) % 512 < 4
    · have hload := h.block ⟨_, h1⟩
      dsimp only at hload
      obtain ⟨hone, hacc, hout⟩ := descriptor_spec _ h1
      rw [hload, if_neg (by rw [hone]; decide), if_pos ⟨hone, by decide, hacc⟩, if_pos (by omega)]
      have hk : va.toNat / 2 ^ (12 + 9 * 2) % 512 = va.toNat % 2 ^ 48 / 2 ^ 30 := by omega
      rw [hk] at hout ⊢
      congr 2
      apply BitVec.eq_of_toNat_eq
      rw [toNat_output (by decide) hout, BitVec.toNat_ofNat]
      omega
    · have hload := h.empty ⟨_, hfield 2⟩ (Nat.le_of_not_lt h1)
      dsimp only at hload
      rw [hload, if_neg (by decide), if_neg (by decide), if_neg (by omega)]
  · have hload := h.others ⟨_, hfield 3⟩ (fun heq => h0 (congrArg Fin.val heq))
    dsimp only at hload
    rw [hload, if_neg (by decide), if_neg (by decide), if_neg (by omega)]

end

/-! ## To level 1 -/

section

variable {code : Code} {y : Symbols} {s : State}

/-- `CurrentEL` says level 2. -/
theorem currentEl_eq_two (p : Word) : (p &&& 0xC) >>> 2 = 2 ↔ elOf p = 2 := by
  have h : ((p &&& 0xC) >>> 2).toNat = p.toNat / 4 % 4 := by
    have hmask : (0xC : Word).toNat = 12 := rfl
    rw [BitVec.toNat_ushiftRight, BitVec.toNat_and, hmask, Nat.shiftRight_eq_div_pow,
      Nat.and_div_two_pow]
    exact Nat.and_two_pow_sub_one_eq_mod _ 2
  have hel : (elOf p).val = p.toNat / 4 % 4 := by
    simp [elOf, Nat.shiftRight_eq_div_pow]
  rw [← BitVec.toNat_inj, Fin.ext_iff, h, hel]
  rfl

structure Tested (d : Fin 31) (s t : State) : Prop where
  ne : Cond.ne.holds t.pstate = decide (s.el ≠ 2)
  mode : mode t.pstate = mode s.pstate
  mem : t.mem = s.mem
  sys : t.sys = s.sys
  x : ∀ i, i ≠ d → t.x i = s.x i

theorem execs_levelOps (d : Fin 31) : Tested d s (execs δ (levelOps d) s) where
  ne := by
    have h := currentEl_eq_two s.pstate
    by_cases hel : elOf s.pstate = 2
    · simp [execs, levelOps, Op.exec, State.getSys, State.el, hel] at h ⊢
      exact h
    · simp [execs, levelOps, Op.exec, State.getSys, State.el, hel] at h ⊢
      exact h
  mode := by simp [execs, levelOps, Op.exec, State.getSys]
  mem := by simp [execs, levelOps, Op.exec, State.getSys]
  sys := by simp [execs, levelOps, Op.exec, State.getSys]
  x i hi := by simp [execs, levelOps, Op.exec, State.getSys, hi]

structure Prepared (label : Word) (s t : State) : Prop where
  mem : t.mem = s.mem
  x19 : t.x 19 = s.x 19
  pstate : t.pstate = s.pstate
  features : t.sys .idAa64mmfr0El1 = s.sys .idAa64mmfr0El1
  sctlr : t.sys .sctlrEl1 = 0x30d00800
  spsr : t.sys .spsrEl2 = 0x3c5
  elr : t.sys .elrEl2 = label + δ

theorem execs_el2Ops (label : Word) : Prepared label s (execs δ (el2Ops label) s) := by
  constructor <;> simp [execs, el2Ops, Op.exec, State.getSys, State.setSys]

/-- What a core is like when it has come to level 1. -/
structure Lowered (s t : State) : Prop where
  mem : t.mem = s.mem
  x19 : t.x 19 = s.x 19
  features : t.sys .idAa64mmfr0El1 = s.sys .idAa64mmfr0El1
  mode : mode t.pstate = if s.el = 2 then 0x3c5 else mode s.pstate
  sctlr : t.sys .sctlrEl1 = if s.el = 2 then 0x30d00800 else s.sys .sctlrEl1

theorem lower {a label : Word} {d : Fin 31} (hd : d ≠ 19)
    (hat : At code a (lowerCode d label))
    (hpc : s.pc = a + δ) : ∃ t, Steps code δ s t ∧ t.pc = label + δ ∧ Lowered s t := by
  obtain ⟨hat, heret, -⟩ := at_append.mp hat
  obtain ⟨hat, hel2⟩ := at_append.mp hat
  obtain ⟨hlevel, hbcond, -⟩ := at_append.mp hat
  have hlen : ((levelOps d).map Instr.op ++ [Instr.bcond .ne label]).length = 4 := rfl
  rw [List.length_append, hlen, ← skip_skip, List.length_map] at heret
  rw [hlen] at hel2
  have hrun := (Steps.ops hlevel hpc).last hbcond rfl
  obtain ⟨hne, hmode, hmem, hsys, hx⟩ := execs_levelOps (s := s) d
  generalize execs δ (levelOps d) s = t at *
  generalize hu : (Instr.bcond .ne label).exec δ { t with pc := skip a (levelOps d).length + δ } = u at *
  have hnext : skip a (levelOps d).length + δ + 4 = skip a 4 + δ := by
    rw [add_right_comm, skip_add_four]
    rfl
  have hupc : u = { t with pc := if s.el = 2 then skip a 4 + δ else label + δ } := by
    rw [← hu, Instr.exec, hne, hnext]
    by_cases hel : s.el = 2 <;> simp [hel]
  clear hu
  by_cases hel : s.el = 2
  · rw [if_pos hel] at hupc
    have hrun := (hrun.trans (Steps.ops hel2 (by rw [hupc]))).last heret rfl
    obtain ⟨hmem', hx19, hpstate, hfeatures, hsctlr, hspsr, helr⟩ := execs_el2Ops (s := u) label
    generalize execs δ (el2Ops label) u = v at *
    have hlevel : elOf v.pstate = 2 := by
      rw [hpstate, hupc, ← elOf_mode, hmode, elOf_mode]
      exact hel
    refine ⟨_, hrun, ?_, ?_, ?_, ?_, ?_, ?_⟩
    · simp only [Instr.exec, State.elr, State.el, hlevel, if_pos, helr]
    · refine hmem'.trans ?_
      rw [hupc]
      exact hmem
    · refine hx19.trans ?_
      rw [hupc]
      exact hx 19 hd.symm
    · refine hfeatures.trans ?_
      rw [hupc]
      exact congrFun hsys .idAa64mmfr0El1
    · rw [if_pos hel]
      simp only [Instr.exec, State.spsr, State.el, hlevel, if_pos, hspsr]
      decide
    · rw [if_pos hel]
      exact hsctlr
  · rw [if_neg hel] at hupc
    refine ⟨u, hrun, by rw [hupc], ?_⟩
    rw [hupc]
    refine ⟨hmem, hx 19 hd.symm, congrFun hsys .idAa64mmfr0El1, ?_, ?_⟩
    · rw [if_neg hel]
      exact hmode
    · rw [if_neg hel]
      exact congrFun hsys .sctlrEl1

/-! ## `.bss` -/

theorem and_not_add_and (l m : Word) : (l &&& ~~~m) + (l &&& m) = l := by
  have hand : (l &&& ~~~m) &&& (l &&& m) = 0 := by
    ext i hi
    simp
    grind
  have hor : (l &&& ~~~m) ||| (l &&& m) = l := by
    ext i hi
    simp
    grind
  rw [BitVec.add_eq_or_of_and_eq_zero _ _ hand, hor]

/-- A multiple of 4 KiB. -/
theorem land_page {v : Word} (hdvd : 4096 ∣ v.toNat) : v &&& ~~~0xFFF = v := by
  have hmask : (0xFFF : Word).toNat = 2 ^ 12 - 1 := rfl
  have hzero : v &&& 0xFFF = 0 := by
    apply BitVec.eq_of_toNat_eq
    rw [BitVec.toNat_and, hmask, Nat.and_two_pow_sub_one_eq_mod]
    exact Nat.mod_eq_zero_of_dvd hdvd
  calc v &&& ~~~0xFFF = (v &&& ~~~0xFFF) + (v &&& 0xFFF) := by rw [hzero]; exact (BitVec.add_zero _).symm
    _ = v := and_not_add_and v 0xFFF

/-- `adrp` of a page. -/
theorem adrp_page {l : Word} (h : 4096 ∣ (l + δ).toNat) : (l &&& ~~~0xFFF) + δ = l + δ := by
  have hl : l = l + δ + PHYS_OFFSET := by
    rw [add_assoc, neg_add_cancel, add_zero]
  have hdvd : 4096 ∣ l.toNat := by
    have hoff : PHYS_OFFSET.toNat = 0xFFFF000000000000 := rfl
    rw [hl, BitVec.toNat_add, hoff]
    omega
  rw [land_page hdvd]

theorem Linked.adrp_l0 (h : Linked code y) : (y.l0Table &&& ~~~0xFFF) + δ = y.l0Table + δ :=
  adrp_page h.align

theorem Linked.adrp_l1 (h : Linked code y) :
    (y.l1Table &&& ~~~0xFFF) + δ = y.l0Table + δ + 4096 := by
  have hnext : y.l0Table + 4096 + δ = y.l0Table + δ + 4096 := add_right_comm ..
  have h4096 : (4096 : Word).toNat = 4096 := rfl
  have hlow := h.low
  have halign := h.align
  rw [h.next, adrp_page, hnext]
  rw [hnext, BitVec.toNat_add, h4096]
  omega

/-- What `adrp` and `add` make of a label. -/
theorem address_add (l : Word) : (l &&& ~~~0xFFF) + δ + (l &&& 0xFFF) = l + δ := by
  rw [add_right_comm, and_not_add_and]

/-- The bytes from `a` on are zero. -/
def zeroed (mem : Mem) (a : Word) (n : ℕ) : Mem := fun b => if (b - a).toNat < n then 0 else mem b

theorem store_zero (mem : Mem) (a : Word) : store mem a 0 = zeroed mem a 8 := by
  funext b
  simp [store, zeroed]

theorem zeroed_zeroed {mem : Mem} {a : Word} {n : ℕ} :
    zeroed (zeroed mem a 8) (a + 8) (8 * n) = zeroed mem a (8 * (n + 1)) := by
  funext b
  have hsub : b - (a + 8) = b - a - 8 := by abel
  have h8 : (8 : Word).toNat = 8 := rfl
  have hlt := (b - a).isLt
  simp only [zeroed, hsub, BitVec.toNat_sub (b - a) 8, h8]
  by_cases hb : (b - a).toNat < 8
  · have hb' : (b - a).toNat < 8 * (n + 1) := by omega
    rw [if_pos hb, if_pos hb', ite_self]
  · have hmod : (2 ^ 64 - 8 + (b - a).toNat) % 2 ^ 64 = (b - a).toNat - 8 := by omega
    have hiff : (b - a).toNat - 8 < 8 * n ↔ (b - a).toNat < 8 * (n + 1) := by omega
    simp only [hmod, if_neg hb, hiff]

/-- The pieces of the code from `_entry` on. -/
structure Pieces (code : Code) (y : Symbols) : Prop where
  head : At code y.entry
    (([.mov (.x 19) (.x 0), .mrs (.x 1) .mpidrEl1, .and (.x 1) (.x 1) 0xff] : List Op).map .op)
  cbz : code (skip y.entry 3) = some (.cbz (.x 1) y.primary)
  park : At code y.park [.op .wfe, .b y.park]
  primary : At code y.primary (lowerCode 1 y.atEl1)
  atEl1 : At code y.atEl1 ((address 1 y.stackTop ++ ([.movSp .sp (.x 1)] : List Op) ++
    address 1 y.bssStart ++ address 2 y.bssEnd).map .op)
  bssLoop : At code y.bssLoop
    [.op (.cmp (.x 1) (.x 2)), .bcond .hs y.bssDone, .op (.strPost .xzr (.x 1) 8), .b y.bssLoop]
  bssDone : At code y.bssDone
    [.bl y.buildTables, .bl y.enableMmu, .op (.ldrLit (.x 0) y.highEntry), .br (.x 0)]
  buildTables : At code y.buildTables ((buildTablesOps y).map .op ++ [.ret])
  enableMmu : At code y.enableMmu ((enableMmuOps y).map .op ++ [.ret])

theorem Linked.pieces (h : Linked code y) : Pieces code y := by
  have hall := h.entry
  rw [entryCode] at hall
  obtain ⟨hall, hmmu⟩ := at_append.mp hall
  obtain ⟨hall, htables⟩ := at_append.mp hall
  obtain ⟨hall, hdone⟩ := at_append.mp hall
  obtain ⟨hall, hloop⟩ := at_append.mp hall
  obtain ⟨hall, hel1⟩ := at_append.mp hall
  obtain ⟨hall, hlower⟩ := at_append.mp hall
  obtain ⟨hall, hpark⟩ := at_append.mp hall
  obtain ⟨hhead, hcbz⟩ := at_append.mp hall
  exact ⟨hhead, hcbz.1, hpark, hlower, hel1, hloop, hdone, htables, hmmu⟩

/-- The loop over `.bss`. -/
theorem zero_loop (h : Linked code y) {a b : Word} {n : ℕ} (hn : a.toNat + 8 * n = b.toNat)
    (hpc : s.pc = y.bssLoop + δ) (h1 : s.x 1 = a) (h2 : s.x 2 = b) :
    ∃ t, Steps code δ s t ∧ t.pc = y.bssDone + δ ∧ t.mem = zeroed s.mem a (8 * n) ∧
      t.x 19 = s.x 19 ∧ t.sys = s.sys ∧ mode t.pstate = mode s.pstate := by
  obtain ⟨hcmp, hhs, hstr, hb, -⟩ := h.pieces.bssLoop
  induction n generalizing s a with
  | zero =>
    have hab : b ≤ a := by
      rw [BitVec.le_def]
      omega
    have hrun := ((Steps.refl s).last hcmp hpc).last hhs (by
      simp only [Instr.exec, Op.exec, hpc]
      ring)
    refine ⟨_, hrun, ?_, ?_, rfl, rfl, ?_⟩
    · simp [Instr.exec, Op.exec, h1, h2, hab]
    · funext c
      simp [Instr.exec, Op.exec, zeroed]
    · simp [Instr.exec, Op.exec]
  | succ n ih =>
    have hab : ¬b ≤ a := by
      rw [BitVec.le_def]
      omega
    have hrun := ((Steps.refl s).last hcmp hpc).last hhs (by
      simp only [Instr.exec, Op.exec, hpc]
      ring)
    generalize ht : (Instr.bcond .hs y.bssDone).exec δ ((Instr.op (.cmp (.x 1) (.x 2))).exec δ s) = t at hrun
    have hnext : t = { s with pstate := (s.compare a b).pstate, pc := y.bssLoop + 4 + 4 + δ } := by
      rw [← ht]
      simp [Instr.exec, Op.exec, h1, h2, hab, hpc]
      abel
    have hrun := (hrun.last hstr (by rw [hnext])).last hb (by
      simp only [hnext, Instr.exec, Op.exec]
      exact add_right_comm ..)
    have h8 : (a + 8).toNat = a.toNat + 8 := by
      have hb := b.isLt
      have h8 : (8 : Word).toNat = 8 := rfl
      rw [BitVec.toNat_add, h8, Nat.mod_eq_of_lt (by omega)]
    obtain ⟨t', hrun', hpc', hmem, hx19, hsys, hmode⟩ := ih (a := a + 8) (by omega) (s := (Instr.b y.bssLoop).exec δ
      ((Instr.op (.strPost .xzr (.x 1) 8)).exec δ t)) rfl (by simp [Instr.exec, Op.exec, hnext, h1]) (by simp [Instr.exec, Op.exec, hnext, h2])
    refine ⟨t', hrun.trans hrun', hpc', ?_, ?_, ?_, ?_⟩
    · rw [hmem, ← zeroed_zeroed, ← store_zero]
      simp [Instr.exec, Op.exec, hnext, h1]
    · simpa [Instr.exec, Op.exec, hnext] using hx19
    · simpa [Instr.exec, Op.exec, hnext] using hsys
    · simpa [Instr.exec, Op.exec, hnext] using hmode

/-! ## The tables -/

/-- A page of the low 256 TiB. -/
theorem land_ADDRESS {v : Word} (hdvd : 4096 ∣ v.toNat) (hlt : v.toNat < 2 ^ 48) :
    v &&& ADDRESS = v := by
  have hsplit : ADDRESS = ~~~0xFFF &&& 0xFFFFFFFFFFFF := by decide
  have hpage : v &&& ~~~0xFFF = v := land_page hdvd
  rw [hsplit, ← BitVec.and_assoc, hpage]
  apply BitVec.eq_of_toNat_eq
  have hmask : (0xFFFFFFFFFFFF : Word).toNat = 2 ^ 48 - 1 := rfl
  rw [BitVec.toNat_and, hmask, Nat.and_two_pow_sub_one_eq_mod, Nat.mod_eq_of_lt hlt]

/-- What `.Lbuild_tables` stores. -/
def tableSlots (l0 : Word) : List (Word × Word) :=
  [(0, (l0 + 4096) ||| 3), (4096, descriptor 0), (4104, descriptor 1), (4112, descriptor 2),
    (4120, descriptor 3)]

theorem execs_buildTables (h : Linked code y) : execs δ (buildTablesOps y) s =
    { s with
      x := (execs δ (buildTablesOps y) s).x
      mem := storeAll s.mem (y.l0Table + δ) (tableSlots (y.l0Table + δ)) } := by
  have h0 : (y.l0Table &&& 0xFFFFFFFFFFFFF000#64) + δ = y.l0Table + δ := h.adrp_l0
  have h1 : (y.l1Table &&& 0xFFFFFFFFFFFFF000#64) + δ = y.l0Table + δ + 4096 := h.adrp_l1
  simp [execs, buildTablesOps, Op.exec, h0, h1, storeAll, tableSlots, descriptor]
  generalize y.l0Table + δ = v
  simp [add_assoc]

theorem entries_apart : ∀ k : Fin 512, k ≠ 0 →
    ([0, 4096, 4104, 4112, 4120].all (Apart (BitVec.ofNat 64 (8 * k)) ·)) = true := by
  set_option maxRecDepth 20000 in decide

theorem blocks_apart : ∀ k : Fin 512, 4 ≤ k.val →
    ([0, 4096, 4104, 4112, 4120].all (Apart (4096 + BitVec.ofNat 64 (8 * k)) ·)) = true := by
  set_option maxRecDepth 20000 in decide

theorem tables_storeAll {mem : Mem} {l0 : Word}
    (hzero : ∀ d : Word, d.toNat + 8 ≤ 8192 → load mem (l0 + d) = 0) :
    Tables (storeAll mem l0 (tableSlots l0)) l0 := by
  have hslot : ∀ {d v : Word}, (d, v) ∈ tableSlots l0 →
      load (storeAll mem l0 (tableSlots l0)) (l0 + d) = v := load_storeAll (by
    have hmap : (tableSlots l0).map Prod.fst = [0, 4096, 4104, 4112, 4120] := rfl
    rw [hmap]
    decide)
  have hrest : ∀ d : Word, d.toNat + 8 ≤ 8192 → ([0, 4096, 4104, 4112, 4120].all (Apart d ·)) = true →
      load (storeAll mem l0 (tableSlots l0)) (l0 + d) = 0 := by
    intro d hd hall
    rw [load_storeAll_of_apart, hzero d hd]
    intro p hp
    refine apart_add l0 (of_decide_eq_true (List.all_eq_true.mp hall p.1 ?_))
    exact List.mem_map_of_mem (f := Prod.fst) hp
  refine ⟨?_, fun k hk => ?_, fun k => ?_, fun k hk => ?_⟩
  · have h0 := hslot (d := 0) (v := (l0 + 4096) ||| 3) List.mem_cons_self
    rwa [add_zero] at h0
  · refine hrest _ ?_ ?_
    · rw [BitVec.toNat_ofNat]
      omega
    · exact entries_apart k hk
  · rw [add_assoc]
    refine hslot ?_
    fin_cases k <;> simp [tableSlots]
  · rw [add_assoc]
    refine hrest _ ?_ (blocks_apart k hk)
    have h4096 : (4096 : Word).toNat = 4096 := rfl
    rw [BitVec.toNat_add, BitVec.toNat_ofNat, h4096]
    omega

/-! ## The MMU -/

/-- `TCR_EL1`, by what the processor says of its addresses. -/
def tcr (features : Word) : Word :=
  let ips := if features &&& 0xf < 5 then features &&& 0xf else 5
  0xb5103510#64 ||| ips <<< 32

/-- What `__enable_mmu` does. -/
structure MmuOn (y : Symbols) (s t : State) : Prop where
  mem : t.mem = s.mem
  sp : t.sp = s.sp
  x19 : t.x 19 = s.x 19
  x30 : t.x 30 = s.x 30
  mode : mode t.pstate = mode s.pstate
  mair : t.sys .mairEl1 = 0xff00
  tcr : t.sys .tcrEl1 = tcr (s.sys .idAa64mmfr0El1)
  ttbr0 : t.sys .ttbr0El1 = (y.l0Table &&& ~~~0xFFF) + δ
  ttbr1 : t.sys .ttbr1El1 = (y.l0Table &&& ~~~0xFFF) + δ
  sctlr : t.sys .sctlrEl1 = s.sys .sctlrEl1 ||| 1 ||| 4 ||| 4096

theorem execs_enableMmu (y : Symbols) (s : State) : MmuOn y s (execs δ (enableMmuOps y) s) := by
  constructor <;> simp [execs, enableMmuOps, Op.exec, State.getSys, State.setSys, Boot.tcr]

/-- The granules and sizes in `TCR_EL1`, without and with `EPD0`. -/
theorem tcr_spec (v : Word) :
    (tcr v &&& 0xC03FC03F = 0x80100010 ∧ (tcr v).getLsbD 7 = false ∧ (tcr v).getLsbD 23 = false) ∧
    ((tcr v ||| 0x80) &&& 0xC03FC03F = 0x80100010 ∧ (tcr v ||| 0x80).getLsbD 7 = true ∧
      (tcr v ||| 0x80).getLsbD 23 = false) := by
  have hsize : ∃ n : Fin 6, (if v &&& 0xf < 5 then v &&& 0xf else 5) = BitVec.ofNat 64 n := by
    by_cases hlt : v &&& 0xf < 5
    · have h5 : (v &&& 0xf).toNat < 5 := hlt
      refine ⟨⟨(v &&& 0xf).toNat, by omega⟩, ?_⟩
      rw [if_pos hlt]
      exact (BitVec.ofNat_toNat _ _).symm ▸ (BitVec.setWidth_eq _).symm
    · exact ⟨5, by rw [if_neg hlt]; rfl⟩
  obtain ⟨n, hn⟩ := hsize
  rw [tcr, hn]
  clear hn
  revert n
  decide

end

end JungeyOs.Boot
