import JungeyOs.Blk
import JungeyOs.Lib.Run

/-!
# The virtio block driver and its device

Models of `Disk::request` and `Disk::wait` (`user/src/blkdrv.rs`, lines 210–292) and of
the device that it drives. Both work on the same memory: one chain of three descriptors,
one header, one data buffer and one status byte, which every request uses. The device
takes the entries of the available ring in order, reads descriptors and buffers at some
moment, and writes the data, the status and the used index at later moments of its own.

The three descriptors name the same buffers in every request; only the `DESC_F_WRITE` of
the second one changes. Every slot of the available ring holds descriptor 0.

Results:
* `inv_step`: once the device has nothing left to write for an earlier request, a request
  stays alone with the device (`Inv`).
* `requests_honest`: in runs whose requests all start so, a request that returns true did
  what it was asked for.
* `stale_completion`: without that, a read returns the data of another sector.
-/

namespace JungeyOs.Virtio

/-- `BLK_T_IN` and `BLK_T_OUT` (lines 74–75). -/
inductive Kind
  | read
  | write
  deriving DecidableEq

/-- The arguments of a `request` call. -/
structure Request where
  kind : Kind
  sector : ℕ
  data : Sector

/-- The memory that driver and device share. -/
structure Dma where
  kind : Kind
  sector : ℕ
  status : UInt8
  data : Sector
  writable : Bool
  availIdx : UInt16
  usedIdx : UInt16

/-- Where the device stands with the entry that it took last. -/
inductive Phase
  | idle
  | fetched (kind : Kind) (sector : ℕ) (data : Sector) (writable : Bool)
  | executed (status : UInt8)
  | reported
  deriving DecidableEq

/-- Where the driver stands in `request`. -/
inductive Pc
  | idle
  /-- `k` of the writes that make up the request are done -/
  | setup (req : Request) (k : ℕ)
  /-- in `wait`, with `checks` rounds of its loop left -/
  | waiting (req : Request) (checks : ℕ)
  /-- `wait` returned true -/
  | woken (req : Request)

/-- What a `request` call came to: its result, the buffer of its caller, and the contents
of the sector on the device when it returned. -/
structure Result where
  req : Request
  ok : Bool
  data : Sector
  onDevice : Sector

structure Sys where
  dma : Dma
  pc : Pc
  lastUsed : UInt16
  interrupts : ℤ
  exhausted : ℕ
  timeouts : ℕ
  disk : Disk
  seen : UInt16
  phase : Phase
  log : List Result

inductive Act
  | request (req : Request)
  /-- the driver goes on; `irq` is what `irq_wait` returns if it is called -/
  | run (irq : ℤ)
  | fetch
  | execute (status : UInt8)
  | report
  | complete

namespace Sys

/-- `request` returns. -/
def finish (s : Sys) (req : Request) (ok : Bool) (data : Sector) : Sys :=
  { s with pc := .idle, log := ⟨req, ok, data, s.disk req.sector⟩ :: s.log }

/-- The writes of `request` in their order (lines 213–240). The last one makes the ring
slot visible through the available index. -/
def setup (s : Sys) (req : Request) : ℕ → Sys
  | 0 => { s with dma := { s.dma with kind := req.kind }, pc := .setup req 1 }
  | 1 => { s with dma := { s.dma with sector := req.sector }, pc := .setup req 2 }
  | 2 => { s with dma := { s.dma with status := 0xff }, pc := .setup req 3 }
  | 3 => { s with
      dma := { s.dma with data := if req.kind = .write then req.data else s.dma.data }
      pc := .setup req 4 }
  | 4 => { s with dma := { s.dma with writable := req.kind = .read }, pc := .setup req 5 }
  | _ => { s with dma := { s.dma with availIdx := s.dma.availIdx + 1 }, pc := .waiting req 8 }

/-- One round of `wait` (lines 266–291); the last one is the check after the loop. -/
def await (s : Sys) (req : Request) (checks : ℕ) (irq : ℤ) : Sys :=
  if s.dma.usedIdx ≠ s.lastUsed then { s with lastUsed := s.dma.usedIdx, pc := .woken req }
  else match checks with
    | 0 => { s with exhausted := s.exhausted + 1 }.finish req false req.data
    | checks + 1 =>
      { s with
        timeouts := if irq < 0 then s.timeouts + 1 else s.timeouts
        interrupts := if irq > 0 then irq else s.interrupts
        pc := .waiting req checks }

/-- `request` after `wait` returned true (lines 249–257). -/
def collect (s : Sys) (req : Request) : Sys :=
  if s.dma.status ≠ 0 then s.finish req false req.data
  else s.finish req true (if req.kind = .read then s.dma.data else req.data)

/-- The device carries out what it has read. It may fail at anything, and fails at a read
into a buffer that it must not write. -/
def execute (s : Sys) (kind : Kind) (sector : ℕ) (data : Sector) (writable : Bool)
    (status : UInt8) : Sys :=
  if status ≠ 0 then { s with phase := .executed status }
  else match kind with
    | .write => { s with disk := Function.update s.disk sector data, phase := .executed 0 }
    | .read =>
      if writable then
        { s with dma := { s.dma with data := s.disk sector }, phase := .executed 0 }
      else { s with phase := .executed 1 }

def step (s : Sys) : Act → Option Sys
  | .request req =>
    match s.pc with
    | .idle => some { s with pc := .setup req 0 }
    | _ => none
  | .run irq =>
    match s.pc with
    | .idle => none
    | .setup req k => some (s.setup req k)
    | .waiting req checks => some (s.await req checks irq)
    | .woken req => some (s.collect req)
  | .fetch =>
    match s.phase with
    | .idle =>
      if s.seen = s.dma.availIdx then none
      else some { s with
        seen := s.seen + 1, phase := .fetched s.dma.kind s.dma.sector s.dma.data s.dma.writable }
    | _ => none
  | .execute status =>
    match s.phase with
    | .fetched kind sector data writable => some (s.execute kind sector data writable status)
    | _ => none
  | .report =>
    match s.phase with
    | .executed status => some { s with dma := { s.dma with status := status }, phase := .reported }
    | _ => none
  | .complete =>
    match s.phase with
    | .reported => some { s with dma := { s.dma with usedIdx := s.dma.usedIdx + 1 }, phase := .idle }
    | _ => none

/-- After `attach` (lines 178–205), which clears the memory: nothing was asked for yet. -/
def Init (s : Sys) : Prop :=
  s.pc = .idle ∧ s.phase = .idle ∧ s.dma.availIdx = 0 ∧ s.dma.usedIdx = 0 ∧ s.seen = 0 ∧
    s.lastUsed = 0 ∧ s.exhausted = 0 ∧ s.timeouts = 0 ∧ s.log = []

/-- The device has written the data and the status of every entry of the ring. -/
def Settled (s : Sys) : Prop := s.seen = s.dma.availIdx ∧ (s.phase = .idle ∨ s.phase = .reported)

instance (s : Sys) : Decidable s.Settled :=
  inferInstanceAs (Decidable (_ ∧ (s.phase = .idle ∨ s.phase = .reported)))

end Sys

/-! ## The claim -/

/-- A read that returned true has the contents of its sector, and after a write that
returned true its sector has its data. -/
def Result.Honest (r : Result) : Prop :=
  r.ok = true → match r.req.kind with
    | .read => r.data = r.onDevice
    | .write => r.onDevice = r.req.data

def Honest (s : Sys) : Prop := ∀ r ∈ s.log, r.Honest

/-- A request is made when the device has nothing left to write for an earlier one. -/
def Ok (s : Sys) : Act → Prop
  | .request _ => s.Settled
  | _ => True

/-! ## The invariant -/

/-- The device has done what the request asks for. -/
def Carried (s : Sys) (req : Request) : Prop :=
  match req.kind with
  | .read => s.dma.data = s.disk req.sector
  | .write => s.disk req.sector = req.data

/-- How far the device is with the one request that it can see. -/
inductive Served (s : Sys) (req : Request) : Prop
  | queued (avail : s.dma.availIdx = s.seen + 1) (phase : s.phase = .idle ∨ s.phase = .reported)
      (kind : s.dma.kind = req.kind) (sector : s.dma.sector = req.sector)
      (status : s.dma.status = 0xff) (data : req.kind = .write → s.dma.data = req.data)
      (writable : s.dma.writable = decide (req.kind = .read))
  | fetched {data : Sector} (seen : s.seen = s.dma.availIdx)
      (phase : s.phase = .fetched req.kind req.sector data (decide (req.kind = .read)))
      (status : s.dma.status = 0xff) (data : req.kind = .write → data = req.data)
  | executed {status : UInt8} (seen : s.seen = s.dma.availIdx) (phase : s.phase = .executed status)
      (unreported : s.dma.status = 0xff) (done : status = 0 → Carried s req)
  | reported (settled : s.Settled) (done : s.dma.status = 0 → Carried s req)

/-- While the request is written, its first `k` writes are in memory. -/
structure Written (s : Sys) (req : Request) (k : ℕ) : Prop where
  settled : s.Settled
  kind : 1 ≤ k → s.dma.kind = req.kind
  sector : 2 ≤ k → s.dma.sector = req.sector
  status : 3 ≤ k → s.dma.status = 0xff
  data : 4 ≤ k → req.kind = .write → s.dma.data = req.data
  writable : 5 ≤ k → s.dma.writable = decide (req.kind = .read)

/-- The request that the driver is at is alone with the device. -/
def Alone (s : Sys) : Prop :=
  match s.pc with
  | .idle => True
  | .setup req k => Written s req k
  | .waiting req _ => Served s req
  | .woken req => Served s req

structure Inv (s : Sys) : Prop where
  alone : Alone s
  honest : Honest s

section

variable {s s' : Sys} {a : Act} {req : Request}

theorem Honest.finish (h : Honest s) {ok : Bool} {data : Sector}
    (hr : Result.Honest ⟨req, ok, data, s.disk req.sector⟩) : Honest (s.finish req ok data) := by
  intro r hmem
  rcases List.mem_cons.mp hmem with rfl | hmem
  · exact hr
  · exact h r hmem

/-- The next write of the request. -/
theorem Inv.setup (h : Inv s) {k : ℕ} (hpc : s.pc = .setup req k) : Inv (s.setup req k) := by
  have hw : Written s req k := by
    have := h.alone
    rwa [Alone, hpc] at this
  match k with
  | 0 => exact ⟨⟨hw.settled, fun _ => rfl, by omega, by omega, by omega, by omega⟩, h.honest⟩
  | 1 => exact ⟨⟨hw.settled, fun _ => hw.kind le_rfl, fun _ => rfl, by omega, by omega, by omega⟩,
      h.honest⟩
  | 2 => exact ⟨⟨hw.settled, fun _ => hw.kind (by omega), fun _ => hw.sector le_rfl, fun _ => rfl,
      by omega, by omega⟩, h.honest⟩
  | 3 => exact ⟨⟨hw.settled, fun _ => hw.kind (by omega), fun _ => hw.sector (by omega),
      fun _ => hw.status le_rfl, fun _ hk => if_pos hk, by omega⟩, h.honest⟩
  | 4 => exact ⟨⟨hw.settled, fun _ => hw.kind (by omega), fun _ => hw.sector (by omega),
      fun _ => hw.status (by omega), fun _ => hw.data le_rfl, fun _ => rfl⟩, h.honest⟩
  | k + 5 =>
    refine ⟨.queued ?_ hw.settled.2 (hw.kind (by omega)) (hw.sector (by omega)) (hw.status (by omega))
      (hw.data (by omega)) (hw.writable (by omega)), h.honest⟩
    exact congrArg (· + 1) hw.settled.1.symm

/-- A status other than that of a new request was written by the device for it. -/
theorem Served.carried (h : Served s req) (hstatus : s.dma.status = 0) : Carried s req := by
  cases h with
  | queued avail phase kind sector status data writable => rw [hstatus] at status; cases status
  | fetched seen phase status data => rw [hstatus] at status; cases status
  | executed seen phase unreported done => rw [hstatus] at unreported; cases unreported
  | reported settled done => exact done hstatus

theorem Inv.collect (h : Inv s) (hserved : Served s req) : Inv (s.collect req) := by
  unfold Sys.collect
  split_ifs with hstatus hkind
  · exact ⟨trivial, h.honest.finish nofun⟩
  · have hcarried := hserved.carried (not_not.mp hstatus)
    refine ⟨trivial, h.honest.finish fun _ => ?_⟩
    simp only [Carried, hkind] at hcarried ⊢
    exact hcarried
  · have hcarried := hserved.carried (not_not.mp hstatus)
    have hwrite : req.kind = .write := by
      cases hk : req.kind with
      | read => exact absurd hk hkind
      | write => rfl
    refine ⟨trivial, h.honest.finish fun _ => ?_⟩
    simp only [Carried, hwrite] at hcarried ⊢
    exact hcarried

theorem Served.of_eq (h : Served s req) (hdma : s'.dma = s.dma) (hseen : s'.seen = s.seen)
    (hphase : s'.phase = s.phase) (hdisk : s'.disk = s.disk) : Served s' req := by
  have hcarried : Carried s req → Carried s' req := by
    unfold Carried
    rw [hdma, hdisk]
    exact id
  cases h with
  | queued avail phase kind sector status data writable =>
    exact .queued (by rw [hdma, hseen, avail]) (hphase ▸ phase) (hdma ▸ kind) (hdma ▸ sector)
      (hdma ▸ status) (hdma ▸ data) (hdma ▸ writable)
  | fetched seen phase status data =>
    exact .fetched (by rw [hdma, hseen, seen]) (hphase ▸ phase) (hdma ▸ status) data
  | executed seen phase unreported done =>
    exact .executed (by rw [hdma, hseen, seen]) (hphase ▸ phase) (hdma ▸ unreported)
      fun hs => hcarried (done hs)
  | reported settled done =>
    exact .reported ⟨by rw [hdma, hseen, settled.1], hphase ▸ settled.2⟩
      fun hs => hcarried (done (hdma ▸ hs))

theorem Inv.await (h : Inv s) {checks : ℕ} {irq : ℤ} (hserved : Served s req) :
    Inv (s.await req checks irq) := by
  unfold Sys.await
  by_cases hused : s.dma.usedIdx ≠ s.lastUsed
  · rw [if_pos hused]
    exact ⟨hserved.of_eq rfl rfl rfl rfl, h.honest⟩
  · rw [if_neg hused]
    cases checks with
    | zero => exact ⟨trivial, Honest.finish (s := { s with exhausted := _ }) h.honest nofun⟩
    | succ checks => exact ⟨hserved.of_eq rfl rfl rfl rfl, h.honest⟩

/-! ## The device -/

/-- A step of the device leaves the driver where it is. -/
theorem Alone.device (h : Alone s) (hpc : s'.pc = s.pc)
    (hwritten : ∀ req k, Written s req k → Written s' req k)
    (hserved : ∀ req, Served s req → Served s' req) : Alone s' := by
  unfold Alone at h ⊢
  rw [hpc]
  cases hp : s.pc with
  | idle => trivial
  | setup req k => rw [hp] at h; exact hwritten req k h
  | waiting req checks => rw [hp] at h; exact hserved req h
  | woken req => rw [hp] at h; exact hserved req h

/-- The device takes the next entry: there is one only while a request is queued. -/
theorem Inv.fetch (h : Inv s) (hnew : s.seen ≠ s.dma.availIdx) :
    Inv { s with
      seen := s.seen + 1, phase := .fetched s.dma.kind s.dma.sector s.dma.data s.dma.writable } := by
  refine ⟨h.alone.device rfl (fun req k hw => absurd hw.settled.1 hnew) fun req hs => ?_, h.honest⟩
  cases hs with
  | queued avail phase kind sector status data writable =>
    refine .fetched avail.symm ?_ status data
    dsimp only
    rw [kind, sector, writable]
  | fetched seen phase status data => exact absurd seen hnew
  | executed seen phase unreported done => exact absurd seen hnew
  | reported settled done => exact absurd settled.1 hnew

/-- The device carries out what it fetched. -/
theorem Inv.execute (h : Inv s) {kind : Kind} {sector : ℕ} {data : Sector} {writable : Bool}
    (hphase : s.phase = .fetched kind sector data writable) (status : UInt8) :
    Inv (s.execute kind sector data writable status) := by
  have hunsettled : ¬s.Settled := by
    rintro ⟨-, hp | hp⟩ <;> rw [hphase] at hp <;> cases hp
  have hkeeps : (s.execute kind sector data writable status).pc = s.pc ∧
      (s.execute kind sector data writable status).log = s.log := by
    unfold Sys.execute
    by_cases hst : status ≠ 0
    · rw [if_pos hst]
      exact ⟨rfl, rfl⟩
    · rw [if_neg hst]
      cases kind with
      | write => exact ⟨rfl, rfl⟩
      | read => cases writable <;> exact ⟨rfl, rfl⟩
  refine ⟨h.alone.device hkeeps.1 (fun req k hw => absurd hw.settled hunsettled) fun req hs => ?_, ?_⟩
  · cases hs with
    | queued avail phase _ _ _ _ _ => rcases phase with hp | hp <;> rw [hphase] at hp <;> cases hp
    | executed seen phase unreported done => rw [hphase] at phase; cases phase
    | reported settled done => exact absurd settled hunsettled
    | fetched seen phase unreported hdata =>
      rw [hphase] at phase
      cases phase
      unfold Sys.execute
      by_cases hst : status ≠ 0
      · rw [if_pos hst]
        exact .executed seen rfl unreported fun h0 => absurd h0 hst
      · rw [if_neg hst]
        cases hk : req.kind with
        | write =>
          refine .executed seen rfl unreported fun _ => ?_
          simp only [Carried, hk]
          exact (Function.update_self _ _ _).trans (hdata hk)
        | read =>
          simp only [decide_true, if_true]
          refine .executed seen rfl unreported fun _ => ?_
          simp only [Carried, hk]
  · intro r hr
    rw [hkeeps.2] at hr
    exact h.honest r hr

theorem Inv.report (h : Inv s) {status : UInt8} (hphase : s.phase = .executed status) :
    Inv { s with dma := { s.dma with status := status }, phase := .reported } := by
  have hunsettled : ¬s.Settled := by
    rintro ⟨-, hp | hp⟩ <;> rw [hphase] at hp <;> cases hp
  refine ⟨h.alone.device rfl (fun req k hw => absurd hw.settled hunsettled) fun req hs => ?_, h.honest⟩
  cases hs with
  | queued avail phase _ _ _ _ _ => rcases phase with hp | hp <;> rw [hphase] at hp <;> cases hp
  | fetched seen phase _ _ => rw [hphase] at phase; cases phase
  | reported settled done => exact absurd settled hunsettled
  | executed seen phase unreported done =>
    rw [hphase] at phase
    cases phase
    exact .reported ⟨seen, .inr rfl⟩ done

theorem Inv.complete (h : Inv s) (hphase : s.phase = .reported) :
    Inv { s with dma := { s.dma with usedIdx := s.dma.usedIdx + 1 }, phase := .idle } := by
  refine ⟨h.alone.device rfl (fun req k hw => ?_) fun req hs => ?_, h.honest⟩
  · exact ⟨⟨hw.settled.1, .inl rfl⟩, hw.kind, hw.sector, hw.status, hw.data, hw.writable⟩
  · cases hs with
    | queued avail phase kind sector status data writable =>
      exact .queued avail (.inl rfl) kind sector status data writable
    | fetched seen phase _ _ => rw [hphase] at phase; cases phase
    | executed seen phase _ _ => rw [hphase] at phase; cases phase
    | reported settled done => exact .reported ⟨settled.1, .inl rfl⟩ done

/-! ## Runs -/

theorem inv_step (h : Inv s) (hok : Ok s a) (hs : s.step a = some s') : Inv s' := by
  cases a <;> simp only [Sys.step] at hs
  case request req =>
    split at hs
    · cases hs
      exact ⟨⟨hok, by omega, by omega, by omega, by omega, by omega⟩, h.honest⟩
    · cases hs
  case run irq =>
    have hserved : ∀ req, s.pc = .woken req ∨ (∃ n, s.pc = .waiting req n) → Served s req := by
      intro req hp
      have halone := h.alone
      unfold Alone at halone
      rcases hp with hp | ⟨n, hp⟩ <;> rw [hp] at halone <;> exact halone
    split at hs
    · cases hs
    · rename_i req k hpc
      cases hs
      exact h.setup hpc
    · rename_i req checks hpc
      cases hs
      exact h.await (hserved req (.inr ⟨checks, hpc⟩))
    · rename_i req hpc
      cases hs
      exact h.collect (hserved req (.inl hpc))
  case fetch =>
    split at hs
    · split_ifs at hs with hnew
      cases hs
      exact h.fetch hnew
    · cases hs
  case execute status =>
    split at hs
    · rename_i kind sector data writable hphase
      cases hs
      exact h.execute hphase status
    · cases hs
  case report =>
    split at hs
    · rename_i status hphase
      cases hs
      exact h.report hphase
    · cases hs
  case complete =>
    split at hs
    · rename_i hphase
      cases hs
      exact h.complete hphase
    · cases hs

end

theorem inv_init {s : Sys} (h : s.Init) : Inv s := by
  obtain ⟨hpc, -, -, -, -, -, -, -, hlog⟩ := h
  refine ⟨?_, fun r hr => ?_⟩
  · rw [Alone, hpc]
    trivial
  · rw [hlog] at hr
    cases hr

/-- In every run in which requests are made only when the device has written the data and the
status of every earlier one, a read that returns true has the contents of its sector, and a
write that returns true has stored its data in its sector. -/
theorem requests_honest {s : Sys} (h : Run.Reachable Sys.step Ok Sys.Init s) : Honest s :=
  (h.invariant Inv (fun _ => inv_init) fun _ _ _ hinv hok hs => inv_step hinv hok hs).honest

/-- A device whose sector `x` holds 512 bytes `x`. -/
def start : Sys where
  dma := ⟨.read, 0, 0, Vector.replicate SECTOR_SIZE 0, false, 0, 0⟩
  pc := .idle
  lastUsed := 0
  interrupts := 0
  exhausted := 0
  timeouts := 0
  disk := fun x => Vector.replicate SECTOR_SIZE (UInt8.ofNat x)
  seen := 0
  phase := .idle
  log := []

/-- A read request: the call, and the six writes that make it up. -/
def readCall (sector : ℕ) : List Act :=
  .request ⟨.read, sector, Vector.replicate SECTOR_SIZE 0⟩ :: List.replicate 6 (.run 0)

/-- The device answers a read of sector 5 after 3 rounds of the wait. -/
def readOne : List Act :=
  readCall 5 ++ [.run 0, .run 0, .fetch, .execute 0, .report, .complete, .run 0, .run 0]

def readOneState : Sys := (Run.exec Sys.step start readOne).getD start

theorem requests_honest_readOneState :
    readOneState.log.map (·.ok) = [true] ∧ Honest readOneState := by
  have hrun : Run.exec Sys.step start readOne = some readOneState := rfl
  have hstart : start.Init := ⟨rfl, rfl, rfl, rfl, rfl, rfl, rfl, rfl, rfl⟩
  have hmeets : Run.Meets Sys.step Ok start readOne := ⟨⟨rfl, .inl rfl⟩, fun s' _ => by
    refine Run.meets_of_forall fun a ha s => ?_
    cases a with
    | request req => simp at ha
    | _ => trivial⟩
  exact ⟨rfl, requests_honest ((Run.Reachable.start hstart).exec hmeets hrun)⟩

/-- The device has fetched a read of sector 5 when the driver gives up on it. It completes
while the driver writes a read of sector 6. -/
def staleCompletion : List Act :=
  readCall 5 ++ .fetch :: List.replicate 9 (.run 0) ++
    [.request ⟨.read, 6, Vector.replicate SECTOR_SIZE 0⟩, .run 0, .run 0, .run 0, .execute 0, .report,
      .complete] ++ List.replicate 5 (.run 0)

def staleCompletionState : Sys := (Run.exec Sys.step start staleCompletion).getD start

/-- The read of sector 6 returns true with the bytes of sector 5. -/
theorem stale_completion :
    ¬∀ s, Run.Reachable Sys.step Run.always Sys.Init s → Honest s := by
  intro h
  have hrun : Run.exec Sys.step start staleCompletion = some staleCompletionState := rfl
  have hreach : Run.Reachable Sys.step Run.always Sys.Init staleCompletionState :=
    Run.reachable_of_exec ⟨rfl, rfl, rfl, rfl, rfl, rfl, rfl, rfl, rfl⟩ hrun
  have hmem : (⟨⟨.read, 6, Vector.replicate SECTOR_SIZE 0⟩, true, Vector.replicate SECTOR_SIZE 5,
      Vector.replicate SECTOR_SIZE 6⟩ : Result) ∈ staleCompletionState.log := List.mem_cons_self
  have hdata : Vector.replicate SECTOR_SIZE (5 : UInt8) = Vector.replicate SECTOR_SIZE 6 :=
    h _ hreach _ hmem rfl
  have hlist : List.replicate SECTOR_SIZE (5 : UInt8) = List.replicate SECTOR_SIZE 6 := by
    simpa only [Vector.toList_replicate] using congrArg Vector.toList hdata
  exact absurd (List.replicate_inj.mp hlist) (by decide)

end JungeyOs.Virtio
