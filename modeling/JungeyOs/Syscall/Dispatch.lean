import JungeyOs.Delivery
import JungeyOs.Devices
import JungeyOs.Irq
import JungeyOs.Jlfs.Layout
import JungeyOs.ModelStore.Faults
import JungeyOs.Tensor.Wait

/-!
# The system calls

`dispatch` and the calls that it leads to (`kernel/src/syscall.rs`), over one state of the kernel. A
call is followed to its return; one that goes round a loop is followed to where it first gives up the
CPU. The scheduler is the state of the calling thread, the disk is what `blk::read_sector` gives for
each sector, and the allocator has frames for the tables of `room` pages. Numbers do not wrap around.

Results:
* `handle_capless`: with an empty table a call that takes a slot fails, and changes nothing.
-/

namespace JungeyOs.Syscall

open Mm (Memory PAGE_SIZE PageMap)
open ModelStore (Store Vma)
open Receive (EBADCAP EPERM EREVOKED EINVAL)
open Delivery (EFAULT)
open Tensor (ETIMEDOUT)
open Sched (State)

/-! ## The state -/

/-- `EDEADLINE` (line 40). -/
def EDEADLINE : ℤ := -7

/-- `EHOT` (line 42). -/
def EHOT : ℤ := -9

/-- An entry of `PUBLISHED` (`model.rs`, line 106). -/
structure Published where
  name : String
  startSector : ℕ
  size : ℕ

/-- What the calls read and change. -/
structure Kernel where
  devices : Devices.Sys
  mem : Memory
  room : ℕ
  vmas : ℕ → List Vma
  exitCode : ℕ → Option ℤ
  irqSeen : ℕ → ℕ
  console : List String
  irqs : Irq.UserIrqs
  enabled : ℕ → Bool
  state : State
  ticks : ℕ
  nowUs : ℕ
  read : ℕ → Option Sector
  published : List Published
  chans : Ipc.Channels
  store : Store
  dev : Tensor.Device

namespace Kernel

def table (k : Kernel) : Proc.Table := k.devices.caps.table

/-- `with_space` (lines 92–95). -/
def withSpace {α : Type*} (k : Kernel) (pid : ℕ) (f : PageMap (Option Cap) → α) : Option α :=
  if pid < k.table.length then some (f (k.devices.spaces pid)) else none

end Kernel

/-- What becomes of a call: it returns, its thread ends, or it has given up the CPU in its loop. -/
inductive Outcome
  | ret (value : ℤ)
  | ends
  | waits
  deriving DecidableEq

/-- The registers of a call. -/
structure Regs where
  x0 : UInt64
  x1 : UInt64
  x2 : UInt64
  x3 : UInt64
  x8 : UInt64

/-- The calls, with their arguments. -/
inductive Call
  | exit (code : ℕ)
  | write (ptr len : ℕ)
  | yield
  | send (slot ptr len : ℕ)
  | recv (slot ptr len fromPtr : ℕ)
  | getpid
  | ticks
  | sleep (ticks : ℕ)
  | mapDevice (slot uva : ℕ)
  | dmaMap (slot uva : ℕ)
  | irqWait (slot timeout : ℕ)
  | modelOpen (ptr len : ℕ)
  | modelMap (id uva : ℕ)
  | modelInfo (id out : ℕ)
  | tensorSubmit (qos segments deadlineUs : ℕ)
  | tensorWait (id timeout : ℕ)
  | tensorStat (id out : ℕ)
  | unknown

/-- The numbers of the calls (lines 14–31 and 55–86). -/
def Call.decode (r : Regs) : Call :=
  let a := r.x0.toNat
  let b := r.x1.toNat
  let c := r.x2.toNat
  let d := r.x3.toNat
  match r.x8.toNat with
  | 0 => .exit a
  | 1 => .write a b
  | 2 => .yield
  | 3 => .send a b c
  | 4 => .recv a b c 0
  | 5 => .getpid
  | 6 => .ticks
  | 7 => .sleep a
  | 8 => .mapDevice a b
  | 9 => .dmaMap a b
  | 10 => .irqWait a b
  | 11 => .modelOpen a b
  | 12 => .modelMap a b
  | 13 => .modelInfo a b
  | 14 => .tensorSubmit a (b % 2 ^ 32) c
  | 15 => .tensorWait a b
  | 16 => .tensorStat a b
  | 17 => .recv a b c d
  | _ => .unknown

/-! ## Calls without an object -/

/-- `as isize`. -/
def isize (v : ℕ) : ℤ := (BitVec.ofNat 64 v).toInt

/-- `sys_write` (lines 97–111). -/
def sysWrite (k : Kernel) (pid ptr len : ℕ) : Outcome × Kernel :=
  if Mm.MAX_TRANSFER < len then (.ret EINVAL, k)
  else match k.withSpace pid fun space => Mm.copyFromUser space k.mem ptr len with
    | some (.ok bytes) =>
      match Jlfs.fromUtf8 bytes with
      | some s => (.ret len, { k with console := k.console ++ [s] })
      | none => (.ret EINVAL, k)
    | _ => (.ret EFAULT, k)

/-- A record of numbers that a call copies out (lines 337–352 and 416–424). -/
def copyOut (k : Kernel) (pid out : ℕ) (vals : List ℕ) : Outcome × Kernel :=
  match k.withSpace pid fun space =>
      Mm.copyToUser space out (vals.flatMap (Bytes.leList 8)) k.mem with
  | some (.ok (), mem) => (.ret 0, { k with mem := mem })
  | some (.error _, mem) => (.ret EFAULT, { k with mem := mem })
  | none => (.ret EFAULT, k)

/-! ## Calls that take a capability -/

/-- `sys_send` (lines 113–132). -/
def sysSend (k : Kernel) (pid slot ptr len : ℕ) : Outcome × Kernel :=
  match Proc.lookupCap k.table pid slot with
  | none => (.ret EBADCAP, k)
  | some cap =>
    if cap.revoked then (.ret EREVOKED, k)
    else if !cap.allows RIGHT_SEND then (.ret EPERM, k)
    else match cap.channel with
      | none => (.ret EINVAL, k)
      | some channel =>
        match k.withSpace pid fun space => Mm.copyFromUser space k.mem ptr len with
        | some (.ok bytes) =>
          match Ipc.send k.chans channel pid bytes with
          | .ok chans => (.ret bytes.length, { k with chans := chans })
          | .error _ => (.ret EINVAL, k)
        | _ => (.ret EFAULT, k)

/-- `sys_recv` (lines 141–184). -/
def sysRecv (k : Kernel) (pid slot ptr len fromPtr : ℕ) : Outcome × Kernel :=
  match Receive.resolve k.table pid slot with
  | .error e => (.ret e, k)
  | .ok channel =>
    match Ipc.recvOrPrepare k.chans k.state channel channel with
    | (chans, _, some msg) =>
      let (result, mem) :=
        Delivery.deliver ⟨pid, slot, ptr, len, fromPtr⟩ msg (k.devices.spaces pid) k.mem
      (.ret result, { k with chans := chans, mem := mem })
    | (chans, state, none) => (.waits, { k with chans := chans, state := state })

/-- `sys_map_device` and `sys_dma_map` (lines 213–250). -/
def sysMap (call : Devices.Sys → (pid slot uva room : ℕ) → ℤ × Devices.Sys) (k : Kernel)
    (pid slot uva : ℕ) : Outcome × Kernel :=
  let (result, devices) := call k.devices pid slot uva k.room
  (.ret result, { k with devices := devices })

/-- `sys_irq_wait` (lines 258–285). -/
def sysIrqWait (k : Kernel) (pid slot timeout : ℕ) : Outcome × Kernel :=
  match Devices.resolve k.table pid slot RIGHT_IRQ with
  | .error e => (.ret e, k)
  | .ok cap =>
    match cap.obj with
    | .irq line =>
      let intid := line.toNat
      let k := { k with enabled := Function.update k.enabled intid true }
      let deadline := k.ticks + timeout
      let seq := (Irq.sequence k.irqs intid).getD 0
      if k.irqSeen pid < seq then
        (.ret seq, { k with irqSeen := Function.update k.irqSeen pid seq })
      else if deadline ≤ k.ticks then (.ret ETIMEDOUT, k)
      else (.waits, k)
    | _ => (.ret EINVAL, k)

/-! ## Models -/

/-- `open_by_name` (`model.rs`, lines 117–127) with `open` (lines 133–169). -/
def openByName (k : Kernel) (name : String) : Except String (ℕ × Store) :=
  match k.published.find? fun p => p.name = name with
  | none => .error "no such model"
  | some p =>
    match ModelStore.hashFile k.read p.startSector p.size with
    | none => .error "read failed"
    | some hash => .ok (k.store.enter hash p.startSector p.size)

/-- `sys_model_open` (lines 288–305). -/
def sysModelOpen (k : Kernel) (pid ptr len : ℕ) : Outcome × Kernel :=
  if 64 < len then (.ret EINVAL, k)
  else match k.withSpace pid fun space => Mm.copyFromUser space k.mem ptr len with
    | some (.ok bytes) =>
      match Jlfs.fromUtf8 bytes with
      | none => (.ret EINVAL, k)
      | some name =>
        match openByName k name with
        | .ok (id, store) => (.ret id, { k with store := store })
        | .error _ => (.ret EBADCAP, k)
    | _ => (.ret EFAULT, k)

/-- `sys_model_map` (lines 312–331). -/
def sysModelMap (k : Kernel) (pid id uva : ℕ) : Outcome × Kernel :=
  if uva % PAGE_SIZE ≠ 0 then (.ret EINVAL, k)
  else match k.store.attach id pid uva with
    | .ok (size, store) =>
      let vma : Vma := ⟨uva, (size + PAGE_SIZE - 1) / PAGE_SIZE, .model id⟩
      (.ret size,
        { k with store := store, vmas := Function.update k.vmas pid (k.vmas pid ++ [vma]) })
    | .error _ => (.ret EBADCAP, k)

/-- `sys_model_info` (lines 335–358). -/
def sysModelInfo (k : Kernel) (pid id out : ℕ) : Outcome × Kernel :=
  match k.store.stat id with
  | none => (.ret EBADCAP, k)
  | some st => copyOut k pid out
      [st.id, st.hash.toNat, st.size, st.resident, st.total, st.faults, st.reclaimed, st.refs]

/-! ## The accelerator -/

/-- `Qos::from_u64` (`tensor.rs`, lines 53–60). -/
def qosOf : ℕ → Tensor.Qos
  | 0 => .interactive
  | 1 => .foreground
  | 2 => .background
  | _ => .opportunistic

/-- The discriminant of a `JobState`. -/
def stateNumber : Tensor.JobState → ℕ
  | .queued => 0
  | .running => 1
  | .done => 2
  | .refused => 3
  | .overBudget => 4

/-- `stat` (`tensor.rs`, lines 562–583), with `latency_us` and `met_deadline` (lines 149–166). -/
def jobStat (dev : Tensor.Device) (now id : ℕ) : Option (List ℕ) :=
  (Dir.lookup Tensor.Job.id dev.jobs id).map fun j =>
    [j.id, j.qos.toNat, j.segments, j.doneSegments,
      (if j.state = .done then j.finishedUs else now) - j.submittedUs, j.deadlineUs.getD 0,
      (if j.state = .done then
        match j.deadlineUs with
        | some d => if j.finishedUs ≤ d then 1 else 0
        | none => 2
      else 2), j.preemptions, j.energyUj, j.deviceUs, stateNumber j.state]

/-- `sys_tensor_submit` (lines 366–387). -/
def sysTensorSubmit (k : Kernel) (pid qos segments deadlineUs : ℕ) : Outcome × Kernel :=
  if segments = 0 ∨ 100000 < segments then (.ret EINVAL, k)
  else
    let deadline := if deadlineUs = 0 then none else some deadlineUs
    match Tensor.submitWithBudget k.dev k.nowUs pid (qosOf qos) segments deadline none with
    | (.ok id, dev) => (.ret id, { k with dev := dev })
    | (.error (.undeliverable _ _), dev) => (.ret EDEADLINE, { k with dev := dev })
    | (.error (.noHeadroom _ _), dev) => (.ret EHOT, { k with dev := dev })

/-- `sys_tensor_wait` (lines 390–405). -/
def sysTensorWait (k : Kernel) (id timeout : ℕ) : Outcome × Kernel :=
  let deadline := k.ticks + max timeout 1
  match Tensor.Wait.finishedOrPrepare k.dev id k.state with
  | (some (some true), state) => (.ret 1, { k with state := state })
  | (some (some false), state) => (.ret 0, { k with state := state })
  | (_, state) =>
    if deadline < k.ticks then (.ret ETIMEDOUT, { k with state := state.cancel })
    else (.waits, { k with state := state })

/-- `sys_tensor_stat` (lines 410–425). -/
def sysTensorStat (k : Kernel) (pid id out : ℕ) : Outcome × Kernel :=
  match jobStat k.dev k.nowUs id with
  | none => (.ret EBADCAP, k)
  | some vals => copyOut k pid out vals

/-! ## Dispatch -/

/-- The calls of a process (lines 55–86). -/
def handle (k : Kernel) (pid : ℕ) : Call → Outcome × Kernel
  | .exit code =>
    (.ends, { k with
      exitCode := if pid < k.table.length then Function.update k.exitCode pid (some (isize code))
        else k.exitCode
      state := .finished })
  | .write ptr len => sysWrite k pid ptr len
  | .yield => (.ret 0, k)
  | .send slot ptr len => sysSend k pid slot ptr len
  | .recv slot ptr len fromPtr => sysRecv k pid slot ptr len fromPtr
  | .getpid => (.ret pid, k)
  | .ticks => (.ret k.ticks, k)
  | .sleep ticks => (.ret 0, { k with state := .sleeping (k.ticks + ticks) })
  | .mapDevice slot uva => sysMap Devices.sysMapDevice k pid slot uva
  | .dmaMap slot uva => sysMap Devices.sysDmaMap k pid slot uva
  | .irqWait slot timeout => sysIrqWait k pid slot timeout
  | .modelOpen ptr len => sysModelOpen k pid ptr len
  | .modelMap id uva => sysModelMap k pid id uva
  | .modelInfo id out => sysModelInfo k pid id out
  | .tensorSubmit qos segments deadlineUs => sysTensorSubmit k pid qos segments deadlineUs
  | .tensorWait id timeout => sysTensorWait k id timeout
  | .tensorStat id out => sysTensorStat k pid id out
  | .unknown => (.ret EINVAL, k)

/-- `dispatch` (lines 45–89), for the thread of a process, or for one of the kernel. -/
def dispatch (k : Kernel) (pid : Option ℕ) (r : Regs) : Outcome × Kernel :=
  match pid with
  | none => (.ret EINVAL, k)
  | some pid => handle k pid (.decode r)

/-! ## Without capabilities -/

/-- The calls that take a slot of the capability table. -/
def Call.takesSlot : Call → Bool
  | .send _ _ _ | .recv _ _ _ _ | .mapDevice _ _ | .dmaMap _ _ | .irqWait _ _ => true
  | _ => false

/-- The process exists, and its capability table is empty. -/
def Kernel.Capless (k : Kernel) (pid : ℕ) : Prop :=
  k.table[pid]? = some (Vector.replicate Proc.CAP_SLOTS none)

theorem Kernel.Capless.lookupCap {k : Kernel} {pid : ℕ} (h : k.Capless pid) (slot : ℕ) :
    Proc.lookupCap k.table pid slot = none := by
  unfold Proc.lookupCap
  have hcaps : k.table[pid]? = some (Vector.replicate Proc.CAP_SLOTS none) := h
  rw [hcaps]
  split_ifs with hslot
  · rfl
  · show (Vector.replicate Proc.CAP_SLOTS (none : Option Cap))[slot]?.join = none
    rw [Vector.getElem?_replicate, if_pos (Nat.not_le.mp hslot)]
    rfl

/-- With an empty table a call that takes a slot fails, and changes nothing. -/
theorem handle_capless {k : Kernel} {pid : ℕ} {call : Call} (h : k.Capless pid)
    (hslot : call.takesSlot = true) : handle k pid call = (.ret EBADCAP, k) := by
  have hlookup := h.lookupCap
  have hdevices : ∀ slot right, Devices.resolve k.devices.caps.table pid slot right =
      .error EBADCAP := by
    intro slot right
    have hnone : Proc.lookupCap k.devices.caps.table pid slot = none := hlookup slot
    rw [Devices.resolve, hnone]
  cases call with
  | send slot ptr len =>
    show sysSend k pid slot ptr len = _
    rw [sysSend, hlookup]
  | recv slot ptr len fromPtr =>
    show sysRecv k pid slot ptr len fromPtr = _
    rw [sysRecv, Receive.resolve, hlookup]
  | mapDevice slot uva =>
    show sysMap Devices.sysMapDevice k pid slot uva = _
    rw [sysMap, Devices.sysMapDevice, Devices.mapCap, hdevices]
  | dmaMap slot uva =>
    show sysMap Devices.sysDmaMap k pid slot uva = _
    rw [sysMap, Devices.sysDmaMap, Devices.mapCap, hdevices]
  | irqWait slot timeout =>
    show sysIrqWait k pid slot timeout = _
    rw [sysIrqWait, show k.table = k.devices.caps.table from rfl, hdevices]
  | _ => cases hslot

/-- One process without capabilities, and a model that somebody else has opened. -/
def demo : Kernel where
  devices := ⟨⟨[], [Vector.replicate Proc.CAP_SLOTS none], [], []⟩, fun _ _ => none⟩
  mem _ := Vector.replicate PAGE_SIZE 0
  room := 0
  vmas _ := []
  exitCode _ := none
  irqSeen _ := 0
  console := []
  irqs := []
  enabled _ := false
  state := .runnable
  ticks := 0
  nowUs := 0
  read _ := none
  published := []
  chans := []
  store := ⟨[⟨1, 0, 8192, 0, [.absent, .absent], [], 1, 0, 0⟩], 2⟩
  dev := ⟨[], 1, 0, 0, Tensor.INITIAL_SEGMENT_US, none, 0, 0⟩

end JungeyOs.Syscall
