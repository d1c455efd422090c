import JungeyOs.Boot.Entry

/-!
# The kernel's first address space

Runs of the code in `JungeyOs.Boot.Entry`: the primary core from the boot loader to `kernel_main`, and
a secondary core from PSCI to `secondary_main`. Up to the branch into the higher half the code is
fetched at physical addresses, also behind the instruction that turns on the MMU.

Results:
* `Mapped.translate`: what the tables map.
* `primary_start`, `secondary_start`: how `kernel_main` and `secondary_main` are entered.
-/

namespace JungeyOs.Boot

open A64

/-! ## Address spaces -/

/-- The low 4 GiB, each address at itself. -/
def identity (va : Word) : Option (Word × Word) :=
  if va.toNat < 2 ^ 32 then some (va, descriptor (va.toNat / 2 ^ 30)) else none

/-- The low 4 GiB, from `PHYS_OFFSET` on. -/
def linear (va : Word) : Option (Word × Word) :=
  let pa := va - PHYS_OFFSET
  if pa.toNat < 2 ^ 32 then some (pa, descriptor (pa.toNat / 2 ^ 30)) else none

/-- Level 0 can do nothing with the addresses that the tables map; level 1 executes no device. -/
theorem descriptor_permissions : ∀ n < 4, userAccessible (descriptor n) = false ∧
    userExecutable (descriptor n) = false ∧ executable (descriptor n) = decide (n ≠ 0) ∧
    attrIndx (descriptor n) = if n = 0 then 0 else 1 := by
  decide

/-- The tables are in use; `low` says whether the low half is translated. -/
structure Mapped (s : State) (l0 : Word) (low : Bool) : Prop where
  regular : s.sys .tcrEl1 &&& 0xC03FC03F = 0x80100010
  epd0 : (s.sys .tcrEl1).getLsbD 7 = !low
  epd1 : (s.sys .tcrEl1).getLsbD 23 = false
  ttbr0 : s.sys .ttbr0El1 = l0
  ttbr1 : s.sys .ttbr1El1 = l0
  tables : Tables s.mem l0
  page : l0 &&& ADDRESS = l0
  page' : (l0 + 4096) &&& ADDRESS = l0 + 4096

section

variable {code : Code} {y : Symbols} {s t : State} {l0 : Word} {low : Bool}

theorem toNat_ushiftRight (va : Word) : (va >>> 48).toNat = va.toNat / 2 ^ 48 := by
  rw [BitVec.toNat_ushiftRight, Nat.shiftRight_eq_div_pow]

theorem toNat_sub_offset (va : Word) :
    (va - PHYS_OFFSET).toNat = (va.toNat + 2 ^ 48) % 2 ^ 64 := by
  have hoff : PHYS_OFFSET.toNat = 2 ^ 64 - 2 ^ 48 := rfl
  rw [BitVec.toNat_sub, hoff]
  congr 1
  omega

theorem linear_low {va : Word} (h : va.toNat < 2 ^ 48) : linear va = none := by
  have hpa := toNat_sub_offset va
  exact if_neg (by omega)

/-- The kernel half. -/
theorem Mapped.translate_high (h : Mapped s l0 low) (va : Word) (hva : 2 ^ 48 ≤ va.toNat) :
    s.translate va = linear va := by
  have hreg : ¬¬s.regular := not_not.mpr h.regular
  have hlow : ¬va >>> 48 = 0 := fun heq => by
    have hnat := congrArg BitVec.toNat heq
    rw [toNat_ushiftRight] at hnat
    have h0 : (0 : Word).toNat = 0 := rfl
    omega
  have hpa := toNat_sub_offset va
  have hlt := va.isLt
  rw [State.translate, if_neg hreg, if_neg hlow, linear]
  by_cases hhigh : va >>> 48 = 0xFFFF
  · have hnat := congrArg BitVec.toNat hhigh
    have hFFFF : (0xFFFF : Word).toNat = 0xFFFF := rfl
    rw [toNat_ushiftRight, hFFFF] at hnat
    have hmod : va.toNat % 2 ^ 48 = (va - PHYS_OFFSET).toNat := by omega
    rw [if_pos hhigh, h.epd1, if_neg Bool.false_ne_true, h.ttbr1, h.page,
      walk_tables h.tables h.page', hmod, BitVec.ofNat_toNat, BitVec.setWidth_eq]
  · rw [if_neg hhigh]
    have hnat : va.toNat / 2 ^ 48 ≠ 0xFFFF := fun heq => hhigh (by
      apply BitVec.eq_of_toNat_eq
      rw [toNat_ushiftRight, heq]
      rfl)
    rw [if_neg (by omega)]

/-- What the tables map, in both halves. -/
theorem Mapped.translate (h : Mapped s l0 low) (va : Word) :
    s.translate va = if va.toNat < 2 ^ 48 then if low then identity va else none else linear va := by
  by_cases hva : va.toNat < 2 ^ 48
  · have hreg : ¬¬s.regular := not_not.mpr h.regular
    have hlow : va >>> 48 = 0 := by
      apply BitVec.eq_of_toNat_eq
      rw [toNat_ushiftRight, Nat.div_eq_of_lt hva]
      rfl
    rw [if_pos hva, State.translate, if_neg hreg, if_pos hlow, h.epd0]
    cases low with
    | false => rfl
    | true =>
      rw [h.ttbr0, h.page, walk_tables h.tables h.page', Nat.mod_eq_of_lt hva, BitVec.ofNat_toNat,
        BitVec.setWidth_eq]
      rfl
  · rw [if_neg hva, h.translate_high va (Nat.le_of_not_lt hva)]

/-! ## To the higher half -/

/-- What a core is like at the branch into the higher half. -/
structure Turned (y : Symbols) (s t : State) : Prop where
  mem : t.mem = s.mem
  x19 : t.x 19 = s.x 19
  mode : mode t.pstate = mode s.pstate
  mair : t.sys .mairEl1 = 0xff00
  sctlr : t.sys .sctlrEl1 = s.sys .sctlrEl1 ||| 1 ||| 4 ||| 4096
  tcr : t.sys .tcrEl1 = tcr (s.sys .idAa64mmfr0El1)
  mapped : Mapped t (y.l0Table + δ) true

/-- `__enable_mmu`, and the branch. -/
theorem turn (h : Linked code y) {p target : Word} (hat : At code p
      [.bl y.enableMmu, .op (.ldrLit (.x 0) target), .br (.x 0)])
    (hpc : s.pc = p + δ) (htables : Tables s.mem (y.l0Table + δ)) :
    ∃ t, Steps code δ s t ∧ t.pc = target ∧ Turned y s t := by
  obtain ⟨hbl, hldr, hbr, -⟩ := hat
  have hnext : p + δ + 4 = p + 4 + δ := add_right_comm ..
  have hrun := Steps.call hbl h.pieces.enableMmu hpc fun s => (execs_enableMmu y s).x30
  have hmmu := execs_enableMmu y (s.set (.x 30) (p + δ + 4))
  generalize execs δ (enableMmuOps y) (s.set (.x 30) (p + δ + 4)) = t at *
  have hrun := (hrun.last hldr hnext).last hbr (by
    simp only [Instr.exec, Op.exec, State.set_x, hnext]
    exact add_right_comm ..)
  obtain ⟨⟨hreg, hepd0, hepd1⟩, -⟩ := tcr_spec (s.sys .idAa64mmfr0El1)
  have halign := h.align
  have hlow := h.low
  have h4096 : (4096 : Word).toNat = 4096 := rfl
  have htcr : t.sys .tcrEl1 = tcr (s.sys .idAa64mmfr0El1) := hmmu.tcr
  refine ⟨_, hrun, ?_, ?_⟩
  · simp [Instr.exec, Op.exec]
  · exact {
      mem := hmmu.mem
      x19 := by simpa [Instr.exec, Op.exec] using hmmu.x19
      mode := hmmu.mode
      mair := hmmu.mair
      sctlr := hmmu.sctlr
      tcr := htcr
      mapped := {
        regular := by simpa [Instr.exec, Op.exec, htcr] using hreg
        epd0 := by simpa [Instr.exec, Op.exec, htcr] using hepd0
        epd1 := by simpa [Instr.exec, Op.exec, htcr] using hepd1
        ttbr0 := hmmu.ttbr0.trans h.adrp_l0
        ttbr1 := hmmu.ttbr1.trans h.adrp_l0
        tables := by
          have hmem : t.mem = s.mem := hmmu.mem
          rw [← hmem] at htables
          exact htables
        page := land_ADDRESS halign (by omega)
        page' := land_ADDRESS (by rw [BitVec.toNat_add, h4096]; omega)
          (by rw [BitVec.toNat_add, h4096]; omega) } }

/-! ## The primary core -/

/-- The first instructions, on the core with number 0. -/
theorem enter_primary (h : Linked code y) (hpc : s.pc = y.entry + δ)
    (hprimary : s.sys .mpidrEl1 &&& 0xff = 0) :
    ∃ t, Steps code δ s t ∧ t.pc = y.primary + δ ∧ t.x 19 = s.x 0 ∧ t.mem = s.mem ∧ t.sys = s.sys ∧
      t.pstate = s.pstate := by
  have hrun := (Steps.ops h.pieces.head hpc).last h.pieces.cbz rfl
  refine ⟨_, hrun, ?_, ?_, rfl, rfl, rfl⟩
  · simp [Instr.exec, execs, Op.exec, State.getSys] at hprimary ⊢
    simp [hprimary]
  · simp [Instr.exec, execs, Op.exec]

/-- `.Lat_el1`: the stack, and the bounds of `.bss`. -/
theorem enter_el1 (h : Linked code y) (hpc : s.pc = y.atEl1 + δ) :
    ∃ t, Steps code δ s t ∧ t.pc = y.bssLoop + δ ∧ t.x 1 = y.bssStart + δ ∧ t.x 2 = y.bssEnd + δ ∧
      t.x 19 = s.x 19 ∧ t.mem = s.mem ∧ t.sys = s.sys ∧ t.pstate = s.pstate := by
  have hrun := Steps.ops h.pieces.atEl1 hpc
  have hstart : (y.bssStart &&& 0xFFFFFFFFFFFFF000#64) + δ + (y.bssStart &&& 0xFFF#64) =
    y.bssStart + δ := address_add _
  have hend : (y.bssEnd &&& 0xFFFFFFFFFFFFF000#64) + δ + (y.bssEnd &&& 0xFFF#64) =
    y.bssEnd + δ := address_add _
  refine ⟨_, hrun, ?_, ?_, ?_, ?_, ?_, ?_, ?_⟩
  · exact congrArg (· + δ) (skip_skip y.entry 24 7)
  · simpa [execs, address, Op.exec] using hstart
  · simpa [execs, address, Op.exec] using hend
  all_goals simp [execs, address, Op.exec]

/-- Memory when the tables are built. -/
def bootMem (y : Symbols) (mem : Mem) : Mem :=
  storeAll (zeroed mem (y.bssStart + δ) (y.bssEnd - y.bssStart).toNat) (y.l0Table + δ)
    (tableSlots (y.l0Table + δ))

/-- The tables are in zeroed memory. -/
theorem tables_bootMem (h : Linked code y) (mem : Mem) : Tables (bootMem y mem) (y.l0Table + δ) := by
  refine tables_storeAll fun d hd => ?_
  have hwithin := h.within
  have hzero : load (fun _ => 0) (y.l0Table + δ + d) = 0 := by
    simp only [load]
    decide
  rw [← hzero]
  refine load_congr fun k hk => if_pos ?_
  have hsub : y.l0Table + δ + d + k - (y.bssStart + δ) = y.l0Table - y.bssStart + d + k := by abel
  have hlt := (y.bssEnd - y.bssStart).isLt
  rw [hsub, BitVec.toNat_add, BitVec.toNat_add]
  omega

/-- `.Lbss_done`, up to the tables. -/
theorem build_tables (h : Linked code y) (hpc : s.pc = y.bssDone + δ) :
    ∃ t, Steps code δ s t ∧ t.pc = y.bssDone + 4 + δ ∧ t.x 19 = s.x 19 ∧
      t.mem = storeAll s.mem (y.l0Table + δ) (tableSlots (y.l0Table + δ)) ∧ t.sys = s.sys ∧
      t.pstate = s.pstate := by
  have hrun := Steps.call h.pieces.bssDone.1 h.pieces.buildTables hpc fun s => by
    simp [execs, buildTablesOps, Op.exec]
  refine ⟨_, hrun, add_right_comm .., ?_, ?_, ?_, ?_⟩
  · simp [execs, buildTablesOps, Op.exec]
  · rw [execs_buildTables h]
    rfl
  · rw [execs_buildTables h]
    rfl
  · rw [execs_buildTables h]
    rfl

/-- How `kernel_main` is entered. -/
structure Booted (y : Symbols) (s t : State) : Prop where
  pc : t.pc = y.kernelMain
  /-- the device tree -/
  x0 : t.x 0 = s.x 0
  sp : t.sp 1 = y.stackTop
  mode : mode t.pstate = if s.el = 2 then 0x3c5 else mode s.pstate
  mmu : t.mmuOn = true
  mair : t.sys .mairEl1 = 0xff00
  translate : ∀ va, t.translate va = linear va
  /-- `.bss` is zero, but for the tables, and nothing else has changed -/
  bss : ∀ b, ¬Outside (y.bssStart + δ) (y.bssEnd - y.bssStart).toNat b →
    Outside (y.l0Table + δ) 8192 b → t.mem b = 0
  mem : ∀ b, Outside (y.bssStart + δ) (y.bssEnd - y.bssStart).toNat b → t.mem b = s.mem b

theorem tableSlots_le (l0 : Word) : ∀ p ∈ tableSlots l0, p.1.toNat + 8 ≤ 8192 := by
  have hall : (((tableSlots l0).map Prod.fst).all fun d => d.toNat + 8 ≤ 8192) = true := by
    have hmap : (tableSlots l0).map Prod.fst = [0, 4096, 4104, 4112, 4120] := rfl
    rw [hmap]
    decide
  intro p hp
  exact of_decide_eq_true (List.all_eq_true.mp hall p.1 (List.mem_map_of_mem hp))

/-- `_high_entry`. -/
theorem enter_kernel (h : Linked code y) (hpc : s.pc = y.highEntry) (hbank : s.bank = 1)
    (hmapped : Mapped s (y.l0Table + δ) true) (hfeatures : ∃ v, s.sys .tcrEl1 = tcr v) :
    ∃ t, Steps code 0 s t ∧ t.pc = y.kernelMain ∧ t.x 0 = s.x 19 ∧ t.sp 1 = y.stackTop ∧
      t.pstate = s.pstate ∧ t.mem = s.mem ∧ t.sys .mairEl1 = s.sys .mairEl1 ∧
      t.sys .sctlrEl1 = s.sys .sctlrEl1 ∧ Mapped t (y.l0Table + δ) false := by
  obtain ⟨hops, hbl, -⟩ := at_append.mp h.high
  have hrun := (Steps.ops hops (by rw [hpc, add_zero])).last hbl rfl
  have hb : bankOf s.pstate = 1 := hbank
  obtain ⟨v, hv⟩ := hfeatures
  obtain ⟨-, hreg, -, hepd1⟩ := tcr_spec v
  obtain ⟨-, -, -, httbr0, httbr1, htables, hpage, hpage'⟩ := hmapped
  refine ⟨_, hrun, add_zero _, ?_, ?_, ?_, ?_, ?_, ?_, ?_⟩
  iterate 6 simp [Instr.exec, execs, highOps, Op.exec, State.getSys, State.setSys, hb]
  exact {
    regular := by simpa [Instr.exec, execs, highOps, Op.exec, State.getSys, State.setSys, hv] using hreg
    epd0 := by simp [Instr.exec, execs, highOps, Op.exec, State.getSys, State.setSys]
    epd1 := by simpa [Instr.exec, execs, highOps, Op.exec, State.getSys, State.setSys, hv] using hepd1
    ttbr0 := by simpa [Instr.exec, execs, highOps, Op.exec, State.getSys, State.setSys] using httbr0
    ttbr1 := by simpa [Instr.exec, execs, highOps, Op.exec, State.getSys, State.setSys] using httbr1
    tables := by simpa [Instr.exec, execs, highOps, Op.exec, State.getSys, State.setSys] using htables
    page := hpage
    page' := hpage' }

theorem bank_of_mode (h : s.el = 2 ∨ s.bank = 1)
    (hmode : mode t.pstate = if s.el = 2 then 0x3c5 else mode s.pstate) : t.bank = 1 := by
  rw [State.bank, ← bankOf_mode, hmode]
  by_cases hel : s.el = 2
  · rw [if_pos hel]
    decide
  · rw [if_neg hel, bankOf_mode]
    exact h.resolve_left hel

/-- From the boot loader to `kernel_main`, on the core with number 0 at level 1 or 2: up to the branch
the physical addresses stay mapped, and behind it the kernel has its own stack, the device tree, zeroed
memory, and an address space with nothing in the low half. -/
theorem primary_start (h : Linked code y) (hpc : s.pc = y.entry + δ)
    (hprimary : s.sys .mpidrEl1 &&& 0xff = 0) (hlevel : s.el = 2 ∨ s.bank = 1) :
    ∃ s₁ t, Steps code δ s s₁ ∧ s₁.pc = y.highEntry ∧ s₁.mmuOn = true ∧
      (∀ va, va.toNat < 2 ^ 48 → s₁.translate va = identity va) ∧
      Steps code 0 s₁ t ∧ Booted y s t := by
  obtain ⟨t₁, hrun₁, hpc₁, hx₁, hmem₁, hsys₁, hpstate₁⟩ := enter_primary h hpc hprimary
  obtain ⟨t₂, hrun₂, hpc₂, hlow⟩ := lower (d := 1) (by decide) h.pieces.primary hpc₁
  obtain ⟨t₃, hrun₃, hpc₃, h1, h2, hx₃, hmem₃, hsys₃, hpstate₃⟩ := enter_el1 h hpc₂
  have hsize : (y.bssStart + δ).toNat + 8 * ((y.bssEnd - y.bssStart).toNat / 8) =
      (y.bssEnd + δ).toNat := by
    have hbss := h.bss
    have hdvd := h.dvd
    have hsub : y.bssEnd - y.bssStart = y.bssEnd + δ - (y.bssStart + δ) := by abel
    have hdiff : (y.bssEnd - y.bssStart).toNat = (y.bssEnd + δ).toNat - (y.bssStart + δ).toNat := by
      rw [hsub, BitVec.toNat_sub_of_le (BitVec.le_def.mpr hbss)]
    omega
  obtain ⟨t₄, hrun₄, hpc₄, hmem₄, hx₄, hsys₄, hmode₄⟩ := zero_loop h hsize hpc₃ h1 h2
  obtain ⟨t₅, hrun₅, hpc₅, hx₅, hmem₅, hsys₅, hpstate₅⟩ := build_tables h hpc₄
  have hmem : t₅.mem = bootMem y s.mem := by
    rw [hmem₅, hmem₄, hmem₃, hlow.mem, hmem₁, Nat.mul_div_cancel' h.dvd, bootMem]
  have hmode : mode t₅.pstate = if s.el = 2 then 0x3c5 else mode s.pstate := by
    rw [hpstate₅, hmode₄, hpstate₃, hlow.mode, State.el, hpstate₁, State.el]
  obtain ⟨s₁, hrun₆, hpc₆, hturned⟩ := turn h h.pieces.bssDone.tail hpc₅ (hmem ▸ tables_bootMem h s.mem)
  have hmode₁ : mode s₁.pstate = if s.el = 2 then 0x3c5 else mode s.pstate :=
    hturned.mode.trans hmode
  have hbank := bank_of_mode hlevel hmode₁
  obtain ⟨t, hrun₇, hpc, hx0, hsp, hpstate, hmem', hmair, hsctlr, hmapped⟩ :=
    enter_kernel h hpc₆ hbank hturned.mapped ⟨_, hturned.tcr⟩
  have hmmu : s₁.mmuOn = true := by
    simp [State.mmuOn, hturned.sctlr]
  refine ⟨s₁, t, ?_, hpc₆, hmmu, fun va hva => ?_, hrun₇, ?_⟩
  · exact hrun₁.trans (hrun₂.trans (hrun₃.trans (hrun₄.trans (hrun₅.trans hrun₆))))
  · rw [hturned.mapped.translate, if_pos hva]
    rfl
  · have htmem : t.mem = bootMem y s.mem := hmem'.trans (hturned.mem.trans hmem)
    exact {
      pc := hpc
      x0 := by rw [hx0, hturned.x19, hx₅, hx₄, hx₃, hlow.x19, hx₁]
      sp := hsp
      mode := by rw [hpstate, hmode₁]
      mmu := by rw [State.mmuOn, hsctlr]; exact hmmu
      mair := hmair.trans hturned.mair
      translate := fun va => by
        rw [hmapped.translate]
        by_cases hva : va.toNat < 2 ^ 48
        · rw [if_pos hva, linear_low hva]
          rfl
        · rw [if_neg hva]
      bss := fun b hb hout => by
        rw [htmem, bootMem, storeAll_of_outside (tableSlots_le _) hout]
        exact if_pos (Nat.lt_of_not_le hb)
      mem := fun b hb => by
        have hout : Outside (y.l0Table + δ) 8192 b := by
          have hwithin := h.within
          have hsub : b - (y.l0Table + δ) = b - (y.bssStart + δ) - (y.l0Table - y.bssStart) := by abel
          rw [Outside] at hb ⊢
          rw [hsub, BitVec.toNat_sub_of_le (BitVec.le_def.mpr (by omega))]
          omega
        rw [htmem, bootMem, storeAll_of_outside (tableSlots_le _) hout]
        exact if_neg (Nat.not_lt.mpr hb) }

/-! ## Secondary cores -/

/-- How `secondary_main` is entered; `base` is where the descriptor is, physically. -/
structure SecondaryBooted (y : Symbols) (s : State) (base : Word) (t : State) : Prop where
  pc : t.pc = y.secondaryMain
  x0 : t.x 0 = base + PHYS_OFFSET
  sp : t.sp 1 = load s.mem base + PHYS_OFFSET
  mode : mode t.pstate = if s.el = 2 then 0x3c5 else mode s.pstate
  mmu : t.mmuOn = true
  mair : t.sys .mairEl1 = 0xff00
  translate : ∀ va, t.translate va = if va.toNat < 2 ^ 48 then identity va else linear va
  mem : t.mem = s.mem

/-- The pieces of the code from `_secondary_start` on. -/
theorem Linked.secondary_pieces (h : Linked code y) :
    At code y.secondaryStart (secondaryOps.map .op) ∧
    At code (skip y.secondaryStart 3) (lowerCode 2 y.secEl1) ∧
    At code y.secEl1 ((secEl1Ops y).map .op) ∧
    At code (skip y.secondaryStart 24)
      [.bl y.enableMmu, .op (.ldrLit (.x 0) y.secondaryHigh), .br (.x 0)] := by
  have hall := h.secondary
  rw [secondaryCode] at hall
  obtain ⟨hall, hturn⟩ := at_append.mp hall
  obtain ⟨hall, hel1⟩ := at_append.mp hall
  obtain ⟨hhead, hlower⟩ := at_append.mp hall
  exact ⟨hhead, hlower, hel1, hturn⟩

/-- The first instructions. -/
theorem enter_secondary (hat : At code y.secondaryStart (secondaryOps.map .op))
    (hpc : s.pc = y.secondaryStart + δ) :
    ∃ t, Steps code δ s t ∧ t.pc = skip y.secondaryStart 3 + δ ∧ t.x 19 = s.x 0 ∧ t.mem = s.mem ∧
      t.pstate = s.pstate := by
  refine ⟨_, Steps.ops hat hpc, rfl, ?_, ?_, ?_⟩
  all_goals simp [execs, secondaryOps, Op.exec]

/-- `.Lsec_el1`. -/
theorem enter_sec_el1 (hat : At code y.secEl1 ((secEl1Ops y).map .op))
    (hpc : s.pc = y.secEl1 + δ) :
    ∃ t, Steps code δ s t ∧ t.pc = skip y.secondaryStart 24 + δ ∧ t.x 19 = s.x 19 ∧
      t.mem = s.mem ∧ t.sys = s.sys ∧ t.pstate = s.pstate := by
  refine ⟨_, Steps.ops hat hpc, congrArg (· + δ) (skip_skip y.secondaryStart 21 3), ?_, ?_, ?_, ?_⟩
  all_goals simp [execs, secEl1Ops, Op.exec]

/-- `_secondary_high`. -/
theorem enter_secondary_main (h : Linked code y) (hpc : s.pc = y.secondaryHigh) (hbank : s.bank = 1) :
    ∃ t, Steps code 0 s t ∧ t.pc = y.secondaryMain ∧ t.x 0 = s.x 19 + PHYS_OFFSET ∧
      t.sp 1 = load s.mem (s.x 19) + PHYS_OFFSET ∧ t.pstate = s.pstate ∧ t.mem = s.mem ∧
      t.sys = s.sys := by
  obtain ⟨hops, hbl, -⟩ := at_append.mp h.secondaryHigh
  have hrun := (Steps.ops hops (by rw [hpc, add_zero])).last hbl rfl
  have hb : bankOf s.pstate = 1 := hbank
  refine ⟨_, hrun, add_zero _, ?_, ?_, ?_, ?_, ?_⟩
  all_goals simp [Instr.exec, execs, secondaryHighOps, Op.exec, hb]

/-- The translation depends on the system registers and on memory. -/
theorem translate_congr (hsys : t.sys = s.sys) (hmem : t.mem = s.mem) {va : Word} :
    t.translate va = s.translate va := by
  obtain ⟨x, sp, sys, pstate, pc, mem⟩ := s
  cases hsys
  cases hmem
  rfl

/-- From PSCI to `secondary_main`, with the tables in memory: the core has the stack and the descriptor
that it was started with, by their virtual addresses. The descriptor is read at its physical address,
also behind the branch, and is mapped there. -/
theorem secondary_start (h : Linked code y) (hpc : s.pc = y.secondaryStart + δ)
    (htables : Tables s.mem (y.l0Table + δ)) (hlevel : s.el = 2 ∨ s.bank = 1)
    (hbase : (s.x 0).toNat < 2 ^ 32) :
    ∃ s₁ t, Steps code δ s s₁ ∧ s₁.pc = y.secondaryHigh ∧
      (s₁.translate (s.x 0)).map Prod.fst = some (s.x 0) ∧
      Steps code 0 s₁ t ∧ SecondaryBooted y s (s.x 0) t := by
  obtain ⟨hhead, hlower, hel1, hturn⟩ := h.secondary_pieces
  obtain ⟨t₁, hrun₁, hpc₁, hx₁, hmem₁, hpstate₁⟩ := enter_secondary hhead hpc
  obtain ⟨t₂, hrun₂, hpc₂, hlow⟩ := lower (d := 2) (by decide) hlower hpc₁
  obtain ⟨t₃, hrun₃, hpc₃, hx₃, hmem₃, hsys₃, hpstate₃⟩ := enter_sec_el1 hel1 hpc₂
  have hmem : t₃.mem = s.mem := by rw [hmem₃, hlow.mem, hmem₁]
  have hx19 : t₃.x 19 = s.x 0 := by rw [hx₃, hlow.x19, hx₁]
  have hmode : mode t₃.pstate = if s.el = 2 then 0x3c5 else mode s.pstate := by
    rw [hpstate₃, hlow.mode, State.el, hpstate₁, State.el]
  obtain ⟨s₁, hrun₄, hpc₄, hturned⟩ := turn h hturn hpc₃ (hmem ▸ htables)
  have hmode₁ : mode s₁.pstate = if s.el = 2 then 0x3c5 else mode s.pstate :=
    hturned.mode.trans hmode
  have hbank := bank_of_mode hlevel hmode₁
  have hlow48 : (s.x 0).toNat < 2 ^ 48 := by omega
  obtain ⟨t, hrun₅, hpc, hx0, hsp, hpstate, hmem', hsys⟩ := enter_secondary_main h hpc₄ hbank
  refine ⟨s₁, t, hrun₁.trans (hrun₂.trans (hrun₃.trans hrun₄)), hpc₄, ?_, hrun₅, ?_⟩
  · rw [hturned.mapped.translate, if_pos hlow48, if_pos rfl, identity, if_pos hbase]
    rfl
  · have hs₁mem : s₁.mem = s.mem := hturned.mem.trans hmem
    have hs₁x : s₁.x 19 = s.x 0 := hturned.x19.trans hx19
    exact {
      pc := hpc
      x0 := by rw [hx0, hs₁x]
      sp := by rw [hsp, hs₁x, hs₁mem]
      mode := by rw [hpstate, hmode₁]
      mmu := by rw [State.mmuOn, hsys]; simp [hturned.sctlr]
      mair := by rw [hsys, hturned.mair]
      translate := fun va => by
        rw [translate_congr hsys (hmem'.trans rfl), hturned.mapped.translate]
        rfl
      mem := hmem'.trans hs₁mem }

end

/-- A kernel with a `.bss` of 16 KiB. -/
def smallKernel : Symbols where
  entry := 0xFFFF000040080040
  highEntry := 0xFFFF000040081000
  secondaryStart := 0xFFFF000040080400
  secondaryHigh := 0xFFFF000040081100
  kernelMain := 0xFFFF000040082000
  secondaryMain := 0xFFFF000040083000
  stackTop := 0xFFFF0000400D0000
  bssStart := 0xFFFF000040090000
  bssEnd := 0xFFFF000040094000
  l0Table := 0xFFFF000040091000
  l1Table := 0xFFFF000040092000

def smallKernelCode : Code :=
  link [(smallKernel.entry, entryCode smallKernel), (smallKernel.highEntry, highCode smallKernel),
    (smallKernel.secondaryStart, secondaryCode smallKernel),
    (smallKernel.secondaryHigh, secondaryHighCode smallKernel)]

theorem linked_smallKernel : Linked smallKernelCode smallKernel where
  entry := at_link (by decide) (by decide) (by simp)
  high := at_link (by decide) (by decide) (by simp)
  secondary := at_link (by decide) (by decide) (by simp)
  secondaryHigh := at_link (by decide) (by decide) (by simp)
  align := by decide
  low := by decide
  next := by decide
  within := by decide
  bss := by decide
  dvd := by decide

/-- A core at level 2. -/
def smallCore (start base : Word) (mem : Mem) : State :=
  ⟨fun _ => base, fun _ => 0, fun _ => 0, 0x3c9, start + δ, mem⟩

theorem primary_start_small :
    ∃ s₁ t, Steps smallKernelCode δ (smallCore smallKernel.entry 0x48000000 0) s₁ ∧
      s₁.pc = smallKernel.highEntry ∧ s₁.mmuOn = true ∧
      (∀ va, va.toNat < 2 ^ 48 → s₁.translate va = identity va) ∧ Steps smallKernelCode 0 s₁ t ∧
      Booted smallKernel (smallCore smallKernel.entry 0x48000000 0) t :=
  primary_start linked_smallKernel rfl (by decide) (.inl (by decide))

theorem secondary_start_small :
    ∃ s₁ t, Steps smallKernelCode δ
        (smallCore smallKernel.secondaryStart 0x40084000 (bootMem smallKernel 0)) s₁ ∧
      s₁.pc = smallKernel.secondaryHigh ∧
      (s₁.translate 0x40084000).map Prod.fst = some 0x40084000 ∧ Steps smallKernelCode 0 s₁ t ∧
      SecondaryBooted smallKernel
        (smallCore smallKernel.secondaryStart 0x40084000 (bootMem smallKernel 0)) 0x40084000 t :=
  secondary_start linked_smallKernel rfl (tables_bootMem linked_smallKernel 0) (.inl (by decide))
    (by decide)

end JungeyOs.Boot
