import JungeyOs.Lib.A64
import JungeyOs.Sched.Schedule
import Mathlib.Data.List.FinRange

/-!
# The context switch

Models of `kernel/src/sched/switch.s`: the switch between kernel threads, where a new thread begins,
and the way to user level. The code runs where it is linked.

Results:
* `cpu_switch_to`: one thread is saved, and the other one has its registers.
* `thread_begins`: the first switch to a thread ends at its entry point.
* `enter_user`: a process starts with nothing of the kernel in its registers.
-/

namespace JungeyOs.Sched

open A64

/-! ## The code -/

/-- The saves of `cpu_switch_to` to `prev` (lines 13–18). -/
def saveCallee : List Op := [
  .stp (.x 19) (.x 20) (.x 0) 0,
  .stp (.x 21) (.x 22) (.x 0) 16,
  .stp (.x 23) (.x 24) (.x 0) 32,
  .stp (.x 25) (.x 26) (.x 0) 48,
  .stp (.x 27) (.x 28) (.x 0) 64,
  .stp (.x 29) (.x 30) (.x 0) 80]

/-- The loads of `cpu_switch_to` from `next` (lines 22–27). -/
def loadCallee : List Op := [
  .ldp (.x 19) (.x 20) (.x 1) 0,
  .ldp (.x 21) (.x 22) (.x 1) 16,
  .ldp (.x 23) (.x 24) (.x 1) 32,
  .ldp (.x 25) (.x 26) (.x 1) 48,
  .ldp (.x 27) (.x 28) (.x 1) 64,
  .ldp (.x 29) (.x 30) (.x 1) 80]

/-- `cpu_switch_to` (lines 12–30), but for the `ret`. -/
def cpuSwitchToOps : List Op :=
  saveCallee ++ [.movSp (.x 9) .sp, .str (.x 9) (.x 0) 96] ++
  loadCallee ++ [.ldr (.x 9) (.x 1) 96, .movSp .sp (.x 9)]

def cpuSwitchTo : List Instr := cpuSwitchToOps.map .op ++ [.ret]

/-- `thread_trampoline` (lines 36–42); `here` is where the last instruction stands. -/
def threadTrampoline (finishSwitch threadExit here : Word) : List Instr := [
  .bl finishSwitch,
  .op (.daifclr 3),
  .op (.mov (.x 0) (.x 20)),
  .blr (.x 19),
  .bl threadExit,
  .b here]

/-- `x1` to `x30`, in this order. -/
def scrubbed : List (Fin 31) := (List.finRange 30).map Fin.succ

/-- `enter_user` (lines 54–94), but for the `eret`. -/
def enterUserOps : List Op :=
  .daifset 3 :: ([
  .msr .spEl0 (.x 1),
  .msr .elrEl1 (.x 0),
  .msr .spsrEl1 .xzr,
  .mov (.x 0) (.x 2)] ++ scrubbed.map fun n => .mov (.x n) .xzr)

def enterUser : List Instr := enterUserOps.map .op ++ [.eret]

/-! ## Contexts in memory -/

/-- The size of a `Context` (`sched/mod.rs`, lines 36–43, `repr(C)`). -/
def CONTEXT_SIZE : ℕ := 104

def contextAt (mem : Mem) (a : Word) : Context where
  regs := Vector.ofFn fun i : Fin 10 => ⟨load mem (a + BitVec.ofNat 64 (8 * i.val))⟩
  x29 := ⟨load mem (a + 80)⟩
  x30 := ⟨load mem (a + 88)⟩
  sp := ⟨load mem (a + 96)⟩

/-- The registers that a call preserves, and the stack of level 1. -/
def contextOf (s : A64.State) : Context where
  regs := Vector.ofFn fun i : Fin 10 => ⟨s.x (Fin.ofNat 31 (19 + i.val))⟩
  x29 := ⟨s.x 29⟩
  x30 := ⟨s.x 30⟩
  sp := ⟨s.sp 1⟩

/-- Where `cpu_switch_to` has which register. -/
def calleeSlots : List (Word × Fin 31) :=
  (List.range 12).map fun i => (BitVec.ofNat 64 (8 * i), Fin.ofNat 31 (19 + i))

theorem storesOf_saveCallee :
    storesOf (.x 0) saveCallee = some (calleeSlots.map fun p => (p.1, .x p.2)) := by
  decide

theorem loadsOf_loadCallee : loadsOf (.x 1) loadCallee = some calleeSlots := by
  decide

/-- The registers that `cpu_switch_to` needs meanwhile are not among them. -/
theorem calleeSlots_ne {p : Word × Fin 31} (hp : p ∈ calleeSlots) : p.2 ≠ 1 ∧ p.2 ≠ 9 := by
  have hall : (calleeSlots.all fun p => p.2 ≠ 1 ∧ p.2 ≠ 9) = true := by decide
  exact of_decide_eq_true (List.all_eq_true.mp hall p hp)

theorem mem_calleeSlots : ∀ i : Fin 10,
    (BitVec.ofNat 64 (8 * i.val), Fin.ofNat 31 (19 + i.val)) ∈ calleeSlots := by
  decide

/-- The doublewords of a context. -/
def contextSlots (s : A64.State) : List (Word × Word) :=
  calleeSlots.map (fun p => (p.1, s.x p.2)) ++ [(96, s.sp 1)]

theorem pairwise_contextSlots (s : A64.State) :
    ((contextSlots s).map Prod.fst).Pairwise Apart := by
  have hmap : (contextSlots s).map Prod.fst = calleeSlots.map Prod.fst ++ [96] := by
    simp [contextSlots]
  rw [hmap]
  decide

theorem contextSlots_le (s : A64.State) : ∀ p ∈ contextSlots s, p.1.toNat + 8 ≤ CONTEXT_SIZE := by
  have hmap : (contextSlots s).map Prod.fst = calleeSlots.map Prod.fst ++ [96] := by
    simp [contextSlots]
  have hall : (((contextSlots s).map Prod.fst).all fun d => d.toNat + 8 ≤ CONTEXT_SIZE) = true := by
    rw [hmap]
    decide
  intro p hp
  exact of_decide_eq_true (List.all_eq_true.mp hall p.1 (List.mem_map_of_mem hp))

/-- Registers that were stored are there. -/
theorem contextAt_storeAll (mem : Mem) (a : Word) (s : A64.State) :
    contextAt (storeAll mem a (contextSlots s)) a = contextOf s := by
  have hslot : ∀ {d v : Word}, (d, v) ∈ contextSlots s →
      load (storeAll mem a (contextSlots s)) (a + d) = v := load_storeAll (pairwise_contextSlots s)
  have hreg : ∀ p ∈ calleeSlots, load (storeAll mem a (contextSlots s)) (a + p.1) = s.x p.2 :=
    fun p hp => hslot (List.mem_append_left _ (List.mem_map_of_mem hp))
  have hregs := fun i => hreg _ (mem_calleeSlots i)
  have h29 := hreg (80, 29) (by decide)
  have h30 := hreg (88, 30) (by decide)
  have hsp := hslot (d := 96) (v := s.sp 1) (by simp [contextSlots])
  simp only [contextAt, contextOf, hregs, h29, h30, hsp]

theorem contextAt_congr {mem mem' : Mem} {a : Word}
    (h : ∀ b, ¬Outside a CONTEXT_SIZE b → mem b = mem' b) : contextAt mem a = contextAt mem' a := by
  have hload : ∀ {d : Word}, d.toNat + 8 ≤ CONTEXT_SIZE → load mem (a + d) = load mem' (a + d) :=
    fun hd => load_of_agree hd h
  have hregs : ∀ i : Fin 10, load mem (a + BitVec.ofNat 64 (8 * i.val)) =
      load mem' (a + BitVec.ofNat 64 (8 * i.val)) := fun i => hload (by
    rw [BitVec.toNat_ofNat, CONTEXT_SIZE]
    omega)
  simp only [contextAt, hregs, hload (d := 80) (by decide), hload (d := 88) (by decide),
    hload (d := 96) (by decide)]

/-! ## Switching -/

section

variable {code : Code} {entry : Word} {s : A64.State}

theorem execs_cpuSwitchTo {δ : Word} (hs : s.bank = 1) :
    let mem := storeAll s.mem (s.x 0) (contextSlots s)
    let sp := load mem (s.x 1 + 96)
    execs δ cpuSwitchToOps s = { s with
      x := Function.update (loadAll mem (s.x 1) (Function.update s.x 9 (s.sp 1)) calleeSlots) 9 sp
      sp := Function.update s.sp 1 sp
      mem := mem } := by
  intro mem sp
  have hb : bankOf s.pstate = 1 := hs
  have h0 : Function.update s.x 9 (s.sp 1) 0 = s.x 0 := Function.update_of_ne (by decide) ..
  have h1 : Function.update s.x 9 (s.sp 1) 1 = s.x 1 := Function.update_of_ne (by decide) ..
  have hmem : store (storeAll s.mem (s.x 0)
      ((calleeSlots.map fun p => (p.1, Reg.x p.2)).map fun p => (p.1, s.get p.2)))
      (s.x 0 + 96) (s.sp 1) = mem := by
    have happend := storeAll_append s.mem (s.x 0) (calleeSlots.map fun p => (p.1, s.x p.2))
      [(96, s.sp 1)]
    rw [List.map_map]
    exact happend.symm
  have hbase : ∀ x, loadAll mem (s.x 1) x calleeSlots 1 = x 1 := fun x =>
    loadAll_of_notMem (by decide)
  rw [cpuSwitchToOps, execs_append, execs_append, execs_append, execs_stores storesOf_saveCallee,
    execs_loads loadsOf_loadCallee fun p hp h => (calleeSlots_ne hp).1 (Base.x.inj h).symm]
  simp only [execs, List.foldl_cons, List.foldl_nil, Op.exec, A64.State.getBase_sp,
    A64.State.setBase_x, A64.State.getBase_x, A64.State.setBase_sp, A64.State.get_x,
    A64.State.set_x, hb, h0, h1, hmem, hbase, Function.update_self]
  rfl

/-- What `cpu_switch_to` does. -/
structure Switched (s s' : A64.State) : Prop where
  /-- the next thread has its registers, and goes on where it called -/
  next : contextOf s' = contextAt s.mem (s.x 1)
  pc : (⟨s'.pc⟩ : UInt64) = (contextAt s.mem (s.x 1)).x30
  /-- the previous thread is saved -/
  prev : contextAt s'.mem (s.x 0) = contextOf s
  mem : ∀ b, Outside (s.x 0) CONTEXT_SIZE b → s'.mem b = s.mem b
  sp : ∀ l, l ≠ 1 → s'.sp l = s.sp l
  sys : s'.sys = s.sys
  pstate : s'.pstate = s.pstate

theorem cpu_switch_to (hat : At code entry cpuSwitchTo) (hs : s.bank = 1) (hpc : s.pc = entry)
    (hapart : A64.Disjoint (s.x 0) CONTEXT_SIZE (s.x 1) CONTEXT_SIZE) :
    ∃ s', Steps code 0 s s' ∧ Switched s s' := by
  obtain ⟨hops, hret, -⟩ := at_append.mp hat
  rw [List.length_map] at hret
  have hrun := (Steps.ops hops (by rw [hpc, add_zero])).last hret rfl
  rw [execs_cpuSwitchTo hs] at hrun
  -- the saves do not touch the context of the next thread
  have hnext : contextAt (storeAll s.mem (s.x 0) (contextSlots s)) (s.x 1) = contextAt s.mem (s.x 1) :=
    contextAt_congr fun b hb =>
      storeAll_of_outside (contextSlots_le s) ((hapart b).resolve_right hb)
  have hload : ∀ (mem : Mem) (x : Fin 31 → Word) (v : Word) (p : Word × Fin 31), p ∈ calleeSlots →
      Function.update (loadAll mem (s.x 1) x calleeSlots) 9 v p.2 = load mem (s.x 1 + p.1) := by
    intro mem x v p hp
    rw [Function.update_of_ne (calleeSlots_ne hp).2, loadAll_of_mem (by decide) hp]
  have hregs := fun mem x v i => hload mem x v _ (mem_calleeSlots i)
  have h29 := fun mem x v => hload mem x v (80, 29) (by decide)
  have h30 := fun mem x v => hload mem x v (88, 30) (by decide)
  refine ⟨_, hrun, ?_⟩
  exact {
    next := by
      rw [← hnext]
      simp only [contextOf, Instr.exec, contextAt, hregs, h29, h30, Function.update_self]
    pc := by
      rw [← hnext]
      simp only [Instr.exec, contextAt, h30]
    prev := contextAt_storeAll s.mem (s.x 0) s
    mem := fun b hb => storeAll_of_outside (contextSlots_le s) hb
    sp := fun l hl => Function.update_of_ne hl ..
    sys := rfl
    pstate := rfl }

/-! ## New threads and processes -/

/-- A new thread begins in `thread_trampoline`, with its entry point in `x19` and its argument in `x20`,
on its own stack. -/
theorem switch_to_new {s' : A64.State} {trampoline f arg top : UInt64} (h : Switched s s')
    (hnew : contextAt s.mem (s.x 1) = Context.new trampoline f arg top) :
    s'.pc = trampoline.toBitVec ∧ s'.x 19 = f.toBitVec ∧ s'.x 20 = arg.toBitVec ∧
      s'.sp 1 = top.toBitVec := by
  have hnext := h.next.trans hnew
  have hpc := congrArg UInt64.toBitVec (h.pc.trans (congrArg Context.x30 hnew))
  have h19 := congrArg (fun ctx => ctx.regs[0].toBitVec) hnext
  have h20 := congrArg (fun ctx => ctx.regs[1].toBitVec) hnext
  have hsp := congrArg (fun ctx => ctx.sp.toBitVec) hnext
  simp [contextOf, Context.new, Context.empty] at h19 h20 hsp
  exact ⟨hpc, h19, h20, hsp⟩

/-- A function that is called comes back to its caller, with the registers that a call preserves. -/
def Returns (code : Code) (f : Word) : Prop := ∀ s : A64.State, s.pc = f → ∃ s', Steps code 0 s s' ∧
  s'.pc = s.x 30 ∧ s'.x 19 = s.x 19 ∧ s'.x 20 = s.x 20 ∧ s'.sp = s.sp ∧ s'.pstate = s.pstate

/-- The first instruction of a thread: at its entry point with its argument, on its own stack, with
interrupts enabled. -/
structure Begun (f arg top ret : Word) (s : A64.State) (s' : A64.State) : Prop where
  pc : s'.pc = f
  x0 : s'.x 0 = arg
  x30 : s'.x 30 = ret
  sp : s'.sp 1 = top
  pstate : s'.pstate = s.pstate &&& ~~~(3#64 <<< 6)

/-- The trampoline, from where `cpu_switch_to` leaves it to the entry point. -/
theorem trampoline_run {trampoline finishSwitch threadExit here : Word}
    (hat : At code trampoline (threadTrampoline finishSwitch threadExit here))
    (hfinish : Returns code finishSwitch) (hpc : s.pc = trampoline) :
    ∃ s', Steps code 0 s s' ∧
      Begun (s.x 19) (s.x 20) (s.sp 1) (skip trampoline 4) s s' := by
  obtain ⟨hbl, hclr, hmov, hblr, -⟩ := hat
  have hstart : Steps code 0 s s := Steps.refl s
  have hcall := hstart.last hbl (by rw [hpc, add_zero])
  obtain ⟨t, hfin, hret, h19, h20, hsp, hpstate⟩ :=
    hfinish ((Instr.bl finishSwitch).exec 0 s) (add_zero _)
  have ht : t.pc = trampoline + 4 := by
    rw [hret, ← hpc]
    simp [Instr.exec]
  have h19 : t.x 19 = s.x 19 := by simpa [Instr.exec] using h19
  have h20 : t.x 20 = s.x 20 := by simpa [Instr.exec] using h20
  have hsp : t.sp = s.sp := hsp
  have hpstate : t.pstate = s.pstate := hpstate
  have hrun := (hcall.trans hfin).last hclr (by rw [ht, add_zero])
  have hrun := hrun.last hmov (by simp [Instr.exec, Op.exec, ht])
  have hrun := hrun.last hblr (by simp [Instr.exec, Op.exec, ht])
  have h4 : skip trampoline 4 = trampoline + 4 + 4 + 4 + 4 := by
    rw [← skip_succ, ← skip_succ, ← skip_succ, ← skip_succ, skip_zero]
  exact ⟨_, hrun, {
    pc := by simp [Instr.exec, Op.exec, h19]
    x0 := by simp [Instr.exec, Op.exec, h20]
    x30 := by simp [Instr.exec, Op.exec, ht, h4]
    sp := by simp [Instr.exec, Op.exec, hsp]
    pstate := by simp [Instr.exec, Op.exec, hpstate] }⟩

/-- The first switch to a thread runs through `thread_trampoline` to its entry point; when it comes
back from there, it calls `thread_exit`, and does not get past the end if that comes back. -/
theorem thread_begins {trampoline finishSwitch threadExit : Word} {f arg top : UInt64}
    (hat : At code entry cpuSwitchTo)
    (htrampoline : At code trampoline
      (threadTrampoline finishSwitch threadExit (skip trampoline 5)))
    (hfinish : Returns code finishSwitch) (hs : s.bank = 1) (hpc : s.pc = entry)
    (hapart : A64.Disjoint (s.x 0) CONTEXT_SIZE (s.x 1) CONTEXT_SIZE)
    (hnew : contextAt s.mem (s.x 1) = Context.new ⟨trampoline⟩ f arg top) :
    (∃ s', Steps code 0 s s' ∧
      Begun f.toBitVec arg.toBitVec top.toBitVec (skip trampoline 4) s s') ∧
    (∀ t : A64.State, t.pc = skip trampoline 4 → ∃ t', Steps code 0 t t' ∧ t'.pc = threadExit ∧
      t'.x 30 = skip trampoline 5) ∧
    ∀ t t' : A64.State, t.pc = skip trampoline 5 → Steps code 0 t t' → t' = t := by
  refine ⟨?_, fun t ht => ?_, fun t t' ht hsteps => ?_⟩
  · obtain ⟨s₁, hswitch, hswitched⟩ := cpu_switch_to hat hs hpc hapart
    obtain ⟨hpc₁, h19, h20, hsp⟩ := switch_to_new hswitched hnew
    obtain ⟨s₂, hrun, hbegun⟩ := trampoline_run htrampoline hfinish hpc₁
    rw [h19, h20, hsp] at hbegun
    exact ⟨s₂, hswitch.trans hrun, { hbegun with pstate := hswitched.pstate ▸ hbegun.pstate }⟩
  · obtain ⟨-, -, -, -, hbl, -⟩ := htrampoline
    have hbl : code (skip trampoline 4) = some (.bl threadExit) := by
      simpa only [← skip_succ, skip_zero] using hbl
    refine ⟨_, Steps.last (.refl t) hbl (by rw [ht, add_zero]), add_zero _, ?_⟩
    simp only [Instr.exec, A64.State.set_x, Function.update_self]
    rw [ht, skip_add_four]
  · obtain ⟨-, -, -, -, -, hb, -⟩ := htrampoline
    have hb : code (skip trampoline 5) = some (.b (skip trampoline 5)) := by
      simpa only [← skip_succ, skip_zero] using hb
    induction hsteps with
    | refl => rfl
    | tail _ hstep ih =>
      subst ih
      rw [step, sub_zero, ht, hb] at hstep
      rw [← Option.some.inj hstep]
      simp only [Instr.exec, add_zero, ← ht]

theorem execs_scrub (δ : Word) (l : List (Fin 31)) (s : A64.State) :
    execs δ (l.map fun n => .mov (.x n) .xzr) s =
      { s with x := fun i => if i ∈ l then 0 else s.x i } := by
  induction l generalizing s with
  | nil => simp [execs]
  | cons n l ih =>
    refine (ih _).trans ?_
    congr 1
    funext i
    by_cases hi : i = n
    · simp [Op.exec, hi]
    · simp [Op.exec, hi]

theorem execs_enterUser {δ : Word} :
    execs δ enterUserOps s = { s with
      x := Function.update (fun _ => 0) 0 (s.x 2)
      sp := Function.update s.sp 0 (s.x 1)
      sys := Function.update (Function.update s.sys .elrEl1 (s.x 0)) .spsrEl1 0
      pstate := s.pstate ||| 0xC0 } := by
  have hmem : ∀ i : Fin 31, i ∈ scrubbed ↔ i ≠ 0 := by decide
  rw [enterUserOps, ← List.singleton_append, ← List.append_assoc, execs_append, execs_scrub]
  simp only [List.cons_append, List.nil_append, hmem, execs, List.foldl_cons, List.foldl_nil, Op.exec, A64.State.get_x,
    A64.State.set_x, A64.State.get_xzr, A64.State.setSys]
  congr 1
  funext i
  by_cases hi : i = 0
  · simp [hi]
  · simp [hi]

theorem elOf_masked (p : Word) : elOf (p ||| 0xC0) = elOf p := by
  have hbits : (p ||| 0xC0).extractLsb' 2 2 = p.extractLsb' 2 2 := by
    rw [BitVec.extractLsb'_or]
    exact BitVec.or_zero ..
  rw [elOf, elOf, hbits]

/-- The state in which a process starts: at its entry point, at level 0 with nothing masked, on its own
stack, and with its argument as the only register that is not zero. -/
structure UserEntry (start stackTop arg : Word) (s' : A64.State) : Prop where
  pc : s'.pc = start
  pstate : s'.pstate = 0
  sp : s'.sp 0 = stackTop
  x : s'.x = Function.update (fun _ => 0) 0 arg

/-- `enter_user` leaves nothing of the kernel in the registers, and no interrupt can come between its
second instruction and the `eret`. -/
theorem enter_user (hat : At code entry enterUser) (hs : s.bank = 1) (hpc : s.pc = entry) :
    (∃ s', Steps code 0 s s' ∧ UserEntry (s.x 0) (s.x 1) (s.x 2) s' ∧ s'.mem = s.mem) ∧
    ∀ n < enterUserOps.length,
      (execs 0 (enterUserOps.take (n + 1)) s).pstate = s.pstate ||| 0xC0 := by
  constructor
  · obtain ⟨hops, heret, -⟩ := at_append.mp hat
    rw [List.length_map] at heret
    have hrun := (Steps.ops hops (by rw [hpc, add_zero])).last heret rfl
    rw [execs_enterUser] at hrun
    have hel : elOf (s.pstate ||| 0xC0) = 1 := (elOf_masked _).trans (elOf_of_bankOf hs)
    refine ⟨_, hrun, ⟨?_, ?_, ?_, rfl⟩, rfl⟩
    · simp only [Instr.exec, A64.State.elr, A64.State.el, hel]
      rfl
    · simp only [Instr.exec, A64.State.spsr, A64.State.el, hel]
      rfl
    · rfl
  · intro n _
    rw [enterUserOps, List.take_succ_cons]
    refine execs_pstate (s := (Op.daifset 3).exec 0 s) fun o ho s => ?_
    rcases List.mem_append.mp (List.mem_of_mem_take ho) with hmem | hmem
    · simp only [List.mem_cons, List.not_mem_nil, or_false] at hmem
      rcases hmem with rfl | rfl | rfl | rfl <;> rfl
    · obtain ⟨i, -, rfl⟩ := List.mem_map.mp hmem
      rfl

end

/-- `enter_user` alone. -/
def userCode : Code := link [(0x1000, enterUser)]

theorem enter_user_small :
    (∃ s', Steps userCode 0 ⟨fun i => 0x400000 + i.val, fun _ => 0x8000, fun _ => 7, 5, 0x1000, 0⟩ s' ∧
      UserEntry 0x400000 0x400001 0x400002 s' ∧ s'.mem = 0) ∧
    ∀ n < enterUserOps.length, (execs 0 (enterUserOps.take (n + 1))
      ⟨fun i => 0x400000 + i.val, fun _ => 0x8000, fun _ => 7, 5, 0x1000, 0⟩).pstate = 5 ||| 0xC0 :=
  have hat : At userCode 0x1000 enterUser :=
    at_link (by decide) (by decide) List.mem_cons_self
  enter_user hat (by decide) rfl

/-- The code of a new thread; `finish_switch` has nothing to release. -/
def newCode : Code :=
  link [(0x1000, cpuSwitchTo), (0x2000, threadTrampoline 0x3000 0x4000 (skip 0x2000 5)),
    (0x3000, [.ret])]

/-- Registers like those that `Context::new` plants. -/
def planted : A64.State where
  x i := if i = 19 then 0x5000 else if i = 20 then 7 else if i = 30 then 0x2000 else 0
  sp _ := 0x9000
  sys _ := 0
  pstate := 0
  pc := 0
  mem _ := 0

/-- A core in front of the first switch to the thread. -/
def beforeFirst : A64.State where
  x i := if i = 0 then 0x6000 else if i = 1 then 0x7000 else 1
  sp _ := 0x8000
  sys _ := 0
  pstate := 0x3C5
  pc := 0x1000
  mem := storeAll (fun _ => 0) 0x7000 (contextSlots planted)

theorem thread_begins_small :
    (∃ s', Steps newCode 0 beforeFirst s' ∧
      Begun 0x5000 7 0x9000 (skip 0x2000 4) beforeFirst s') ∧
    (∀ t : A64.State, t.pc = skip 0x2000 4 → ∃ t', Steps newCode 0 t t' ∧ t'.pc = 0x4000 ∧
      t'.x 30 = skip 0x2000 5) ∧
    ∀ t t' : A64.State, t.pc = skip 0x2000 5 → Steps newCode 0 t t' → t' = t := by
  have hswitch : At newCode 0x1000 cpuSwitchTo :=
    at_link (by decide) (by decide) List.mem_cons_self
  have htrampoline : At newCode 0x2000 (threadTrampoline 0x3000 0x4000 (skip 0x2000 5)) :=
    at_link (by decide) (by decide) (List.mem_cons_of_mem _ List.mem_cons_self)
  have hret : At newCode 0x3000 [.ret] :=
    at_link (by decide) (by decide)
      (List.mem_cons_of_mem _ (List.mem_cons_of_mem _ List.mem_cons_self))
  have hfinish : Returns newCode 0x3000 := fun s hs =>
    ⟨_, (Steps.refl s).last hret.1 (by rw [hs, add_zero]), rfl, rfl, rfl, rfl, rfl⟩
  have hapart : A64.Disjoint (beforeFirst.x 0) CONTEXT_SIZE (beforeFirst.x 1) CONTEXT_SIZE := by
    intro b
    have hb := b.isLt
    have h6 : (beforeFirst.x 0).toNat = 0x6000 := rfl
    have h7 : (beforeFirst.x 1).toNat = 0x7000 := rfl
    simp only [Outside, CONTEXT_SIZE, BitVec.toNat_sub, h6, h7]
    omega
  have hnew : contextAt beforeFirst.mem (beforeFirst.x 1) = Context.new ⟨0x2000⟩ 0x5000 7 0x9000 :=
    (contextAt_storeAll _ _ planted).trans (by decide)
  exact thread_begins hswitch htrampoline hfinish (by decide) rfl hapart hnew

end JungeyOs.Sched
