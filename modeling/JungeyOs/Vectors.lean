import JungeyOs.Lib.A64
import Mathlib.Data.List.FinRange

/-!
# Exception entry and exit

Models of `kernel/src/vectors.s` and of the trap frame in `kernel/src/exceptions.rs`.

Results:
* `frameAt_storeAll`: a frame that was stored is found again.
* `enter`: `rust_exception` is called with a frame of everything that was interrupted.
* `leave`: what was interrupted goes on as the frame says.
-/

namespace JungeyOs.Vectors

open A64

/-! ## The code -/

/-- `FRAME_SIZE` (line 24). -/
def FRAME_SIZE : Word := 288

/-- `FRAME_ELR` (line 25). -/
def FRAME_ELR : Word := 256

/-- `FRAME_SPSR` (line 26). -/
def FRAME_SPSR : Word := 264

/-- `FRAME_SP_EL0` (line 27). -/
def FRAME_SP_EL0 : Word := 272

/-- The general registers in `SAVE_REGS` (lines 31–46). -/
def saveGeneral : List Op := [
  .stp (.x 0) (.x 1) .sp (16 * 0),
  .stp (.x 2) (.x 3) .sp (16 * 1),
  .stp (.x 4) (.x 5) .sp (16 * 2),
  .stp (.x 6) (.x 7) .sp (16 * 3),
  .stp (.x 8) (.x 9) .sp (16 * 4),
  .stp (.x 10) (.x 11) .sp (16 * 5),
  .stp (.x 12) (.x 13) .sp (16 * 6),
  .stp (.x 14) (.x 15) .sp (16 * 7),
  .stp (.x 16) (.x 17) .sp (16 * 8),
  .stp (.x 18) (.x 19) .sp (16 * 9),
  .stp (.x 20) (.x 21) .sp (16 * 10),
  .stp (.x 22) (.x 23) .sp (16 * 11),
  .stp (.x 24) (.x 25) .sp (16 * 12),
  .stp (.x 26) (.x 27) .sp (16 * 13),
  .stp (.x 28) (.x 29) .sp (16 * 14),
  .str (.x 30) .sp (16 * 15)]

/-- `SAVE_REGS` (lines 29–52). -/
def saveRegs : List Op :=
  [.subi .sp .sp FRAME_SIZE] ++ saveGeneral ++ [
  .mrs (.x 9) .elrEl1,
  .mrs (.x 10) .spsrEl1,
  .stp (.x 9) (.x 10) .sp FRAME_ELR,
  .mrs (.x 9) .spEl0,
  .str (.x 9) .sp FRAME_SP_EL0]

/-- The general registers in `RESTORE_REGS` (lines 60–75). -/
def restoreGeneral : List Op := [
  .ldp (.x 0) (.x 1) .sp (16 * 0),
  .ldp (.x 2) (.x 3) .sp (16 * 1),
  .ldp (.x 4) (.x 5) .sp (16 * 2),
  .ldp (.x 6) (.x 7) .sp (16 * 3),
  .ldp (.x 8) (.x 9) .sp (16 * 4),
  .ldp (.x 10) (.x 11) .sp (16 * 5),
  .ldp (.x 12) (.x 13) .sp (16 * 6),
  .ldp (.x 14) (.x 15) .sp (16 * 7),
  .ldp (.x 16) (.x 17) .sp (16 * 8),
  .ldp (.x 18) (.x 19) .sp (16 * 9),
  .ldp (.x 20) (.x 21) .sp (16 * 10),
  .ldp (.x 22) (.x 23) .sp (16 * 11),
  .ldp (.x 24) (.x 25) .sp (16 * 12),
  .ldp (.x 26) (.x 27) .sp (16 * 13),
  .ldp (.x 28) (.x 29) .sp (16 * 14),
  .ldr (.x 30) .sp (16 * 15)]

/-- `RESTORE_REGS` (lines 54–77). -/
def restoreRegs : List Op := [
  .ldp (.x 9) (.x 10) .sp FRAME_ELR,
  .msr .elrEl1 (.x 9),
  .msr .spsrEl1 (.x 10),
  .ldr (.x 9) .sp FRAME_SP_EL0,
  .msr .spEl0 (.x 9)] ++ restoreGeneral ++ [.addi .sp .sp FRAME_SIZE]

/-- `VENTRY` (lines 79–84). -/
def ventry (idx common : Word) : List Instr :=
  (saveRegs ++ [Op.movi (.x 0) idx]).map .op ++ [.b common]

/-- The arguments of `rust_exception` that `__exception_common` sets up (lines 109–112). -/
def commonArgs : List Op := [
  .mrs (.x 1) .esrEl1,
  .mrs (.x 2) .elrEl1,
  .mrs (.x 3) .farEl1,
  .movSp (.x 4) .sp]

/-- `__exception_common` (lines 108–115). -/
def exceptionCommon (rustException : Word) : List Instr :=
  commonArgs.map .op ++ [.bl rustException] ++ restoreRegs.map .op ++ [.eret]

/-- `TrapFrame` (`exceptions.rs`, lines 13–21). -/
structure TrapFrame where
  x : Fin 31 → Word
  elr : Word
  spsr : Word
  spEl0 : Word

/-- The frame at an address, as `repr(C)` lays it out: a padding word comes behind `x`. -/
def frameAt (mem : Mem) (base : Word) : TrapFrame where
  x i := load mem (base + BitVec.ofNat 64 (8 * i))
  elr := load mem (base + FRAME_ELR)
  spsr := load mem (base + FRAME_SPSR)
  spEl0 := load mem (base + FRAME_SP_EL0)

/-! ## Entry -/

/-- The doublewords of a frame. -/
def slots (f : TrapFrame) : List (Word × Word) :=
  (List.finRange 31).map (fun i => (BitVec.ofNat 64 (8 * i.val), f.x i)) ++
    [(FRAME_ELR, f.elr), (FRAME_SPSR, f.spsr), (FRAME_SP_EL0, f.spEl0)]

theorem map_slots (f : TrapFrame) : (slots f).map Prod.fst =
    (List.finRange 31).map (fun i => BitVec.ofNat 64 (8 * i.val)) ++
      [FRAME_ELR, FRAME_SPSR, FRAME_SP_EL0] := by
  simp [slots]

theorem pairwise_slots (f : TrapFrame) : ((slots f).map Prod.fst).Pairwise Apart := by
  rw [map_slots]
  decide

theorem slots_le (f : TrapFrame) : ∀ p ∈ slots f, p.1.toNat + 8 ≤ FRAME_SIZE.toNat := by
  have hall : (((slots f).map Prod.fst).all fun d => d.toNat + 8 ≤ FRAME_SIZE.toNat) = true := by
    rw [map_slots]
    decide
  intro p hp
  exact of_decide_eq_true (List.all_eq_true.mp hall p.1 (List.mem_map_of_mem hp))

/-- A frame that was stored is there. -/
theorem frameAt_storeAll (mem : Mem) (base : Word) (f : TrapFrame) :
    frameAt (storeAll mem base (slots f)) base = f := by
  have hslot : ∀ {d v : Word}, (d, v) ∈ slots f →
      load (storeAll mem base (slots f)) (base + d) = v := load_storeAll (pairwise_slots f)
  have hx : ∀ i : Fin 31, load (storeAll mem base (slots f)) (base + BitVec.ofNat 64 (8 * i.val)) =
      f.x i := fun i =>
    hslot (List.mem_append_left _ (List.mem_map.mpr ⟨i, List.mem_finRange i, rfl⟩))
  have helr := hslot (d := FRAME_ELR) (v := f.elr) (by simp [slots])
  have hspsr := hslot (d := FRAME_SPSR) (v := f.spsr) (by simp [slots])
  have hsp := hslot (d := FRAME_SP_EL0) (v := f.spEl0) (by simp [slots])
  simp only [frameAt, hx, helr, hspsr, hsp]

/-- The frame that is saved on entry. -/
def frameOf (s : State) : TrapFrame := ⟨s.x, s.sys .elrEl1, s.sys .spsrEl1, s.sp 0⟩

theorem storesOf_saveGeneral : storesOf .sp saveGeneral =
    some ((List.finRange 31).map fun i => (BitVec.ofNat 64 (8 * i.val), .x i)) := by
  decide

theorem execs_saveRegs {s : State} {δ : Word} (h : s.bank = 1) :
    execs δ saveRegs s = { s with
      x := Function.update (Function.update (Function.update s.x 9 (s.sys .elrEl1)) 10
        (s.sys .spsrEl1)) 9 (s.sp 0)
      sp := Function.update s.sp 1 (s.sp 1 - FRAME_SIZE)
      mem := storeAll s.mem (s.sp 1 - FRAME_SIZE) (slots (frameOf s)) } := by
  have hb : bankOf s.pstate = 1 := h
  rw [saveRegs, execs_append, execs_append, execs_stores storesOf_saveGeneral]
  simp only [execs, List.foldl_cons, List.foldl_nil, Op.exec, State.setBase, State.getBase,
    State.bank, hb, State.get, State.set, State.getSys, Function.update_self, slots, storeAll_append,
    List.map_map, frameOf]
  have h9 : Function.update (Function.update s.x 9 (s.sys .elrEl1)) 10 (s.sys .spsrEl1) 9 =
      s.sys .elrEl1 := by
    rw [Function.update_of_ne (by decide), Function.update_self]
  have h0 : Function.update s.sp 1 (s.sp 1 - FRAME_SIZE) 0 = s.sp 0 :=
    Function.update_of_ne (by decide) ..
  rw [h9, h0]
  rfl

theorem frameAt_congr {mem mem' : Mem} {base : Word}
    (h : ∀ b, ¬Outside base FRAME_SIZE.toNat b → mem b = mem' b) :
    frameAt mem base = frameAt mem' base := by
  have hload : ∀ {d : Word}, d.toNat + 8 ≤ FRAME_SIZE.toNat →
      load mem (base + d) = load mem' (base + d) := fun hd => load_of_agree hd h
  have hx : ∀ i : Fin 31, load mem (base + BitVec.ofNat 64 (8 * i.val)) =
      load mem' (base + BitVec.ofNat 64 (8 * i.val)) := fun i => hload (by
    have hsize : FRAME_SIZE.toNat = 288 := rfl
    rw [BitVec.toNat_ofNat, hsize]
    omega)
  simp only [frameAt, hx, hload (d := FRAME_ELR) (by decide), hload (d := FRAME_SPSR) (by decide),
    hload (d := FRAME_SP_EL0) (by decide)]

/-! ## Exit -/

theorem loadsOf_restoreGeneral : loadsOf .sp restoreGeneral =
    some ((List.finRange 31).map fun i => (BitVec.ofNat 64 (8 * i.val), i)) := by
  decide

theorem execs_restoreRegs {s : State} {δ : Word} (h : s.bank = 1) :
    let f := frameAt s.mem (s.sp 1)
    execs δ restoreRegs s = { s with
      x := f.x
      sp := Function.update (Function.update s.sp 0 f.spEl0) 1 (s.sp 1 + FRAME_SIZE)
      sys := Function.update (Function.update s.sys .elrEl1 f.elr) .spsrEl1 f.spsr } := by
  intro f
  have hb : bankOf s.pstate = 1 := h
  have h1 : ∀ v, Function.update s.sp 0 v 1 = s.sp 1 := fun v => Function.update_of_ne (by decide) ..
  have h9 : ∀ v w, Function.update (Function.update s.x 9 v) 10 w 9 = v := fun v w => by
    rw [Function.update_of_ne (by decide), Function.update_self]
  have hx : ∀ x : Fin 31 → Word, loadAll s.mem (s.sp 1) x
      ((List.finRange 31).map fun i => (BitVec.ofNat 64 (8 * i.val), i)) = f.x := fun x => by
    funext i
    refine loadAll_of_mem ?_ (List.mem_map.mpr ⟨i, List.mem_finRange i, rfl⟩)
    rw [List.map_map]
    exact (List.nodup_finRange 31).map fun _ _ => id
  rw [restoreRegs, execs_append, execs_append, execs_loads loadsOf_restoreGeneral (by simp)]
  simp only [execs, List.foldl_cons, List.foldl_nil, Op.exec, State.setBase, State.getBase,
    State.bank, hb, State.get, State.set, State.setSys]
  simp only [Function.update_self, h1, h9, hx]
  rfl

/-! ## Running the code -/

/-- The vector table and the common part are where they were linked. -/
structure Loaded (code : Code) (vectors common rustException : Word) : Prop where
  vector : ∀ idx : Fin 16, At code (vectors + BitVec.ofNat 64 (0x80 * idx.val))
    (ventry (BitVec.ofNat 64 idx.val) common)
  common : At code common (exceptionCommon rustException)

/-- An entry fits into the space that the table has for it. -/
theorem length_ventry (idx common : Word) : 4 * (ventry idx common).length ≤ 0x80 := by
  have hlen : (ventry idx common).length = 24 := rfl
  omega

/-- What `rust_exception` finds. -/
structure Entered (s : State) (idx ret : Word) (s₁ : State) : Prop where
  x0 : s₁.x 0 = idx
  x1 : s₁.x 1 = s.sys .esrEl1
  x2 : s₁.x 2 = s.sys .elrEl1
  x3 : s₁.x 3 = s.sys .farEl1
  x4 : s₁.x 4 = s.sp 1 - FRAME_SIZE
  x30 : s₁.x 30 = ret
  sp : s₁.sp = Function.update s.sp 1 (s.sp 1 - FRAME_SIZE)
  pstate : s₁.pstate = s.pstate
  frame : frameAt s₁.mem (s.sp 1 - FRAME_SIZE) = frameOf s
  mem : ∀ b, Outside (s.sp 1 - FRAME_SIZE) FRAME_SIZE.toNat b → s₁.mem b = s.mem b

/-- What was interrupted goes on as the frame says. -/
structure Left (f : TrapFrame) (s s' : State) : Prop where
  x : s'.x = f.x
  pc : s'.pc = f.elr
  pstate : s'.pstate = f.spsr
  sp : s'.sp = Function.update (Function.update s.sp 0 f.spEl0) 1 (s.sp 1 + FRAME_SIZE)
  mem : s'.mem = s.mem

section

variable {code : Code} {vectors common rustException : Word} {s : State}

/-- The state in front of the call. -/
theorem execs_entry (hs : s.bank = 1) (idx : Word) :
    let t := execs 0 commonArgs (execs 0 (saveRegs ++ [.movi (.x 0) idx]) s)
    (t.x 0 = idx ∧ t.x 1 = s.sys .esrEl1 ∧ t.x 2 = s.sys .elrEl1 ∧ t.x 3 = s.sys .farEl1 ∧
      t.x 4 = s.sp 1 - FRAME_SIZE) ∧
    t.sp = Function.update s.sp 1 (s.sp 1 - FRAME_SIZE) ∧ t.pstate = s.pstate ∧
    t.mem = storeAll s.mem (s.sp 1 - FRAME_SIZE) (slots (frameOf s)) := by
  have hb : bankOf s.pstate = 1 := hs
  intro t
  have ht : t = execs 0 commonArgs (execs 0 (saveRegs ++ [.movi (.x 0) idx]) s) := rfl
  rw [execs_append, execs_saveRegs hs] at ht
  simp only [execs, commonArgs, List.foldl_cons, List.foldl_nil, Op.exec, State.setBase,
    State.getBase, State.bank, hb, State.set, State.getSys, Function.update_self] at ht
  rw [ht]
  simp [Function.update]

theorem enter (h : Loaded code vectors common rustException) (idx : Fin 16) (hs : s.bank = 1)
    (hpc : s.pc = vectors + BitVec.ofNat 64 (0x80 * idx.val)) :
    ∃ s₁, Steps code 0 s s₁ ∧ s₁.pc = rustException ∧
      Entered s (BitVec.ofNat 64 idx.val) (skip common 5) s₁ := by
  obtain ⟨hsave, hb, -⟩ := at_append.mp (h.vector idx)
  obtain ⟨hcall, -⟩ := at_append.mp h.common
  obtain ⟨hcall, -⟩ := at_append.mp hcall
  obtain ⟨hargs, hbl, -⟩ := at_append.mp hcall
  rw [List.length_map] at hb hbl
  have hrun := Steps.ops hsave (by rw [hpc, add_zero])
  have hrun := (hrun.last hb rfl).trans (Steps.ops hargs rfl)
  have hrun := hrun.last hbl rfl
  obtain ⟨⟨hx0, hx1, hx2, hx3, hx4⟩, hsp, hpstate, hmem⟩ :=
    execs_entry hs (BitVec.ofNat 64 idx.val)
  rw [Instr.exec, execs_pc, execs_pc] at hrun
  generalize execs 0 commonArgs (execs 0 (saveRegs ++ [.movi (.x 0) (BitVec.ofNat 64 idx.val)]) s) = t
    at *
  have hlink : skip common commonArgs.length + 0 + 4 = skip common 5 := by
    rw [add_zero, skip_add_four]
    rfl
  refine ⟨_, hrun, add_zero _, ?_⟩
  exact {
    x0 := hx0
    x1 := hx1
    x2 := hx2
    x3 := hx3
    x4 := hx4
    x30 := hlink
    sp := hsp
    pstate := hpstate
    frame := by
      refine Eq.trans ?_ (frameAt_storeAll s.mem (s.sp 1 - FRAME_SIZE) (frameOf s))
      exact congrArg (frameAt · _) hmem
    mem := fun b hb => (congrFun hmem b).trans (storeAll_of_outside (slots_le _) hb) }

theorem leave (h : Loaded code vectors common rustException) (hs : s.bank = 1)
    (hpc : s.pc = skip common 5) :
    ∃ s', Steps code 0 s s' ∧ Left (frameAt s.mem (s.sp 1)) s s' := by
  obtain ⟨hall, heret, -⟩ := at_append.mp h.common
  obtain ⟨-, hrestore⟩ := at_append.mp hall
  have hrun := Steps.ops hrestore (by rw [hpc, add_zero]; rfl)
  have hlen : (commonArgs.map Instr.op ++ [Instr.bl rustException] ++ restoreRegs.map Instr.op).length =
      5 + restoreRegs.length := by
    simp [commonArgs]
    omega
  rw [hlen, ← skip_skip] at heret
  have hrun := hrun.last heret rfl
  rw [execs_restoreRegs hs] at hrun
  have hel : elOf s.pstate = 1 := elOf_of_bankOf hs
  refine ⟨_, hrun, rfl, ?_, ?_, rfl, rfl⟩
  · simp [Instr.exec, State.elr, State.el, hel]
  · simp [Instr.exec, State.spsr, State.el, hel]

theorem frameOf_takeException (s : State) (offset esr far : Word) :
    frameOf (s.takeException offset esr far) = ⟨s.x, s.pc, s.pstate, s.sp 0⟩ := by
  simp [frameOf, State.takeException, Function.update]

end

end JungeyOs.Vectors
