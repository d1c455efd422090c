import JungeyOs.Syscall.Dispatch

/-!
# Sums of values that a process chooses

The additions, subtractions and multiplications of `u64` and `usize` values in the system calls that
are not checked: those of `syscall.rs`, `mm/uaccess.rs`, `mm/paging.rs`, `ipc.rs`, `model.rs`,
`tensor.rs` and `sched/mod.rs` on the path of each call, by their exact results, and those in which
`find_vma`, `reclaim` and the timer use what the call has stored. Left out are those of constants
only, those of page table and register addresses, and the requests to the disk driver.

Results:
* `copySums_iff`: a copy stays in range unless it comes to the top of the address space.
* `mapSums_iff`: so does `map`.
* `inRange_iff`: all results of a call are in range exactly when the values that the process has chosen
  do not take it over the end of the range.
* `sleep_wraps`: a call that wraps around.
-/

namespace JungeyOs.Syscall

open Mm (PAGE_SIZE PAGE_SIZE_pos PageMap pageAlignDown chunk)

/-! ## The results of the operations -/

/-- The exact result of an operation on `u64` values is a `u64` value. -/
def U64 (v : ℤ) : Prop := 0 ≤ v ∧ v < 2 ^ 64

/-- `PHYS_OFFSET` (`mm/mod.rs`, line 21). -/
def PHYS_OFFSET : ℕ := 0xFFFF000000000000

/-- What `arm_next` reads (`time.rs`, lines 18–22): the cycles of a tick, and those at boot. -/
structure Timer where
  interval : ℕ
  bootCycles : ℕ

/-- The loops of `copy_from_user` and `copy_to_user` (`uaccess.rs`, lines 21–29 and 35–43). -/
def copySums {τ : Type*} (space : PageMap τ) (uva len : ℕ) : (fuel done : ℕ) → List ℤ
  | 0, _ => []
  | fuel + 1, done =>
    if done < len then
      let va := uva + done
      (va : ℤ) :: match space.translate va with
        | none => []
        | some pa =>
          let inPage : ℤ := PAGE_SIZE - (va % PAGE_SIZE : ℕ)
          let n := chunk uva len done
          [inPage, (len : ℤ) - done, (pa : ℤ) + PHYS_OFFSET, (done : ℤ) + n] ++
            copySums space uva len fuel (done + n)
    else []

/-- `copy_from_user` in a call of a process. -/
def copyFromSums (k : Kernel) (pid ptr len : ℕ) : List ℤ :=
  if pid < k.table.length ∧ len ≤ Mm.MAX_TRANSFER then
    copySums (k.devices.spaces pid) ptr len len 0
  else []

/-- `copy_to_user` in a call of a process. -/
def copyToSums (k : Kernel) (pid out len : ℕ) : List ℤ :=
  if pid < k.table.length then copySums (k.devices.spaces pid) out len len 0 else []

/-- `map` (`paging.rs`, lines 127–139), which stops after the page for which it finds no table. -/
def mapSums (va pa pages room : ℕ) : List ℤ :=
  if va % PAGE_SIZE ≠ 0 ∨ pa % PAGE_SIZE ≠ 0 then []
  else (List.range (min pages (room + 1))).flatMap fun i : ℕ =>
    let offset : ℤ := i * PAGE_SIZE
    [offset, va + offset] ++ if i < room then [offset, pa + offset] else []

/-- `sys_map_device` and `sys_dma_map` (lines 213–250) with a capability of `obj`. -/
def objSums (obj : Obj) (uva room : ℕ) (request : Obj → Option Devices.Request) : List ℤ :=
  match request obj with
  | none => []
  | some r =>
    (match obj with
      | .mmio base size =>
        let offset : ℤ := base - pageAlignDown base
        [offset, offset + size]
      | _ => []) ++ mapSums uva r.pa r.pages room

/-- The loop of `open` (`model.rs`, lines 139–145) from sector `s` on. -/
def openSums (k : Kernel) (start : ℕ) : (sectors s left : ℕ) → List ℤ
  | 0, _, _ => []
  | sectors + 1, s, left =>
    ((start : ℤ) + s) :: match k.read (start + s) with
      | none => []
      | some _ =>
        let n := min left SECTOR_SIZE
        ((left : ℤ) - n) :: openSums k start sectors (s + 1) (left - n)

/-- `model::open_by_name` (`model.rs`, lines 117–169). -/
def openByNameSums (k : Kernel) (name : String) : List ℤ :=
  match k.published.find? fun p => p.name = name with
  | none => []
  | some p =>
    openSums k p.startSector ((p.size + SECTOR_SIZE - 1) / SECTOR_SIZE) 0 p.size ++
      match ModelStore.hashFile k.read p.startSector p.size with
      | none => []
      | some hash =>
        match k.store.models.find? fun m => m.hash = hash with
        | some m => [(m.refs : ℤ) + 1]
        | none => [(k.store.nextId : ℤ) + 1]

/-- What `find_vma` (`proc.rs`, line 188) and `reclaim` (`model.rs`, line 311) make of the region. -/
def regionSums (uva pages : ℕ) : List ℤ :=
  [(pages : ℤ) * PAGE_SIZE, uva + (pages : ℤ) * PAGE_SIZE] ++
    (List.range pages).flatMap fun i : ℕ => [(i : ℤ) * PAGE_SIZE, uva + (i : ℤ) * PAGE_SIZE]

/-- The partial sums of `sum` (`tensor.rs`, lines 306–313) and the products that it adds. -/
def aheadSums (cost : ℕ) : (acc : ℕ) → List Tensor.Job → List ℤ
  | _, [] => []
  | acc, j :: jobs =>
    let left : ℤ := j.segments - j.doneSegments
    let work := (j.segments - j.doneSegments) * cost
    [left, left * cost, acc + work] ++ aheadSums cost (acc + work) jobs

/-- `temperature_locked` (`tensor.rs`, lines 218–230). -/
def temperatureSums (dev : Tensor.Device) (now : ℕ) : List ℤ :=
  if dev.thermalUpdatedUs = 0 ∨ (now - dev.thermalUpdatedUs) / 1000 = 0 then []
  else [((now - dev.thermalUpdatedUs) / 1000 : ℕ) * Tensor.DECAY_PER_MS_MILLI_C]

/-- `submit_with_budget` (`tensor.rs`, lines 268–352), with or without `record_refusal`. -/
def submitSums (k : Kernel) (qos : Tensor.Qos) (segments : ℕ) (deadlineIn : Option ℕ) : List ℤ :=
  let cost := k.dev.usPerSegment
  let neededUs := segments * cost
  let record := ((k.dev.nextId : ℤ) + 1) :: match deadlineIn with
    | some window => [(k.nowUs : ℤ) + window]
    | none => []
  [(segments : ℤ) * cost, (neededUs : ℤ) * Tensor.DEVICE_POWER_MW] ++
    temperatureSums k.dev k.nowUs ++
    (if Tensor.thermalLimit qos ≤ (Tensor.temperatureLocked k.dev k.nowUs).tempMilliC then []
    else match deadlineIn with
      | some _ =>
        aheadSums cost 0 (k.dev.jobs.filter fun j => j.Live ∧ j.qos.toNat ≤ qos.toNat) ++
          [(neededUs : ℤ) + Tensor.ahead k.dev.jobs qos cost]
      | none => []) ++ record

/-- `sleep_ticks` (`sched/mod.rs`, lines 458–464), and `arm_next` (`time.rs`, line 142) on a core that
is idle until then. -/
def sleepSums (k : Kernel) (t : Timer) (ticks : ℕ) : List ℤ :=
  let wake := k.ticks + ticks
  (wake : ℤ) :: if ticks = 0 ∨ t.interval = 0 then []
    else [(wake : ℤ) * t.interval, t.bootCycles + (wake : ℤ) * t.interval]

/-- `sys_send` (lines 113–132) with `ipc::send` (`ipc.rs`, line 41). -/
def sendSums (k : Kernel) (pid slot ptr len : ℕ) : List ℤ :=
  match Proc.lookupCap k.table pid slot with
  | none => []
  | some cap =>
    if cap.revoked ∨ !cap.allows RIGHT_SEND then []
    else match cap.channel with
      | none => []
      | some channel => copyFromSums k pid ptr len ++
        match k.withSpace pid fun space => Mm.copyFromUser space k.mem ptr len, k.chans[channel]? with
        | some (.ok _), some ch => [(ch.sent : ℤ) + 1]
        | _, _ => []

/-- `sys_recv` (lines 141–184) with `recv_or_prepare` (`ipc.rs`, line 63). -/
def recvSums (k : Kernel) (pid slot ptr len fromPtr : ℕ) : List ℤ :=
  match Receive.resolve k.table pid slot with
  | .error _ => []
  | .ok channel =>
    match k.chans[channel]? with
    | none => []
    | some ch =>
      match ch.queue with
      | [] => []
      | msg :: _ =>
        let n := min msg.bytes.length len
        ((ch.received : ℤ) + 1) :: copyToSums k pid ptr n ++
          match (Mm.copyToUser (k.devices.spaces pid) ptr (msg.bytes.take n) k.mem).1 with
          | .ok () => if fromPtr ≠ 0 then copyToSums k pid fromPtr 8 else []
          | .error _ => []

/-- `sys_map_device` and `sys_dma_map` (lines 213–250). -/
def mapCapSums (request : Obj → Option Devices.Request) (k : Kernel) (pid slot uva : ℕ) : List ℤ :=
  match Devices.resolve k.table pid slot RIGHT_MAP with
  | .error _ => []
  | .ok cap => objSums cap.obj uva k.room request

/-- `sys_irq_wait` (line 272). -/
def irqWaitSums (k : Kernel) (pid slot timeout : ℕ) : List ℤ :=
  match Devices.resolve k.table pid slot RIGHT_IRQ with
  | .error _ => []
  | .ok cap =>
    match cap.obj with
    | .irq _ => [(k.ticks : ℤ) + timeout]
    | _ => []

/-- `sys_model_open` (lines 288–305). -/
def modelOpenSums (k : Kernel) (pid ptr len : ℕ) : List ℤ :=
  if 64 < len then []
  else copyFromSums k pid ptr len ++
    match k.withSpace pid fun space => Mm.copyFromUser space k.mem ptr len with
    | some (.ok bytes) =>
      match Jlfs.fromUtf8 bytes with
      | some name => openByNameSums k name
      | none => []
    | _ => []

/-- `sys_model_map` (lines 312–331). -/
def modelMapSums (k : Kernel) (id uva : ℕ) : List ℤ :=
  if uva % PAGE_SIZE ≠ 0 then []
  else match k.store.model id with
    | none => []
    | some m => regionSums uva ((m.size + PAGE_SIZE - 1) / PAGE_SIZE)

/-- `sys_model_info` (lines 335–358). -/
def modelInfoSums (k : Kernel) (pid id out : ℕ) : List ℤ :=
  match k.store.model id with
  | none => []
  | some _ => copyToSums k pid out 64

/-- `sys_tensor_submit` (lines 366–387). -/
def tensorSubmitSums (k : Kernel) (qos segments deadlineUs : ℕ) : List ℤ :=
  if segments = 0 ∨ 100000 < segments then []
  else submitSums k (qosOf qos) segments (if deadlineUs = 0 then none else some deadlineUs)

/-- `sys_tensor_stat` (lines 410–425). -/
def tensorStatSums (k : Kernel) (pid id out : ℕ) : List ℤ :=
  match Dir.lookup Tensor.Job.id k.dev.jobs id with
  | none => []
  | some _ => copyToSums k pid out 88

/-- The operations of a call. -/
def sums (k : Kernel) (t : Timer) (pid : ℕ) : Call → List ℤ
  | .write ptr len => copyFromSums k pid ptr len
  | .send slot ptr len => sendSums k pid slot ptr len
  | .recv slot ptr len fromPtr => recvSums k pid slot ptr len fromPtr
  | .sleep ticks => sleepSums k t ticks
  | .mapDevice slot uva => mapCapSums Devices.deviceRequest k pid slot uva
  | .dmaMap slot uva => mapCapSums Devices.dmaRequest k pid slot uva
  | .irqWait slot timeout => irqWaitSums k pid slot timeout
  | .modelOpen ptr len => modelOpenSums k pid ptr len
  | .modelMap id uva => modelMapSums k id uva
  | .modelInfo id out => modelInfoSums k pid id out
  | .tensorSubmit qos segments deadlineUs => tensorSubmitSums k qos segments deadlineUs
  | .tensorWait _ timeout => [(k.ticks : ℤ) + max timeout 1]
  | .tensorStat id out => tensorStatSums k pid id out
  | .exit _ | .yield | .getpid | .ticks | .unknown => []

/-! ## The claim -/

/-- Clocks and counters are below `2^62`, and physical addresses and files are where they can be; no
job has more segments behind it than it has. -/
structure Bounded (k : Kernel) (t : Timer) : Prop where
  ticks : k.ticks < 2 ^ 62
  nowUs : k.nowUs < 2 ^ 62
  bootCycles : t.bootCycles < 2 ^ 62
  channels : ∀ ch ∈ k.chans, ch.sent < 2 ^ 62 ∧ ch.received < 2 ^ 62
  modelIds : k.store.nextId < 2 ^ 62
  refs : ∀ m ∈ k.store.models, m.refs < 2 ^ 62
  jobIds : k.dev.nextId < 2 ^ 62
  segments : ∀ j ∈ k.dev.jobs, j.doneSegments ≤ j.segments ∧ j.segments < 2 ^ 32
  frames : ∀ pid page leaf, k.devices.spaces pid page = some leaf → leaf.frame + PAGE_SIZE ≤ 2 ^ 48
  registers : ∀ pid slot cap base size, Proc.lookupCap k.table pid slot = some cap →
    cap.obj = .mmio base size → base + size + PAGE_SIZE ≤ 2 ^ 48
  memory : ∀ pid slot cap base pages, Proc.lookupCap k.table pid slot = some cap →
    cap.obj = .dma base pages → base + pages * PAGE_SIZE ≤ 2 ^ 48
  files : ∀ p ∈ k.published, p.startSector + p.size < 2 ^ 62

/-- The copy ends at the top of the address space at the latest, or it stops below it at a page that is
not mapped. -/
def CopyFits {τ : Type*} (space : PageMap τ) (uva len : ℕ) : Prop :=
  uva + len ≤ 2 ^ 64 ∨ ∃ i < len, uva + i < 2 ^ 64 ∧ space.translate (uva + i) = none

/-- What the process has chosen does not take an operation over the end of the range. -/
def InRange (k : Kernel) (t : Timer) (pid : ℕ) : Call → Prop
  | .write ptr len => len ≤ Mm.MAX_TRANSFER → CopyFits (k.devices.spaces pid) ptr len
  | .send slot ptr len => ∀ cap, Proc.lookupCap k.table pid slot = some cap → cap.revoked = false →
      cap.allows RIGHT_SEND = true → cap.channel.isSome → len ≤ Mm.MAX_TRANSFER →
        CopyFits (k.devices.spaces pid) ptr len
  | .recv slot ptr len fromPtr => ∀ channel msg rest,
      Receive.resolve k.table pid slot = .ok channel → Ipc.queued k.chans channel = msg :: rest →
        CopyFits (k.devices.spaces pid) ptr (min msg.bytes.length len) ∧
        (Delivery.Mapped (k.devices.spaces pid) ptr (min msg.bytes.length len) → fromPtr ≠ 0 →
          CopyFits (k.devices.spaces pid) fromPtr 8)
  | .sleep ticks => k.ticks + ticks < 2 ^ 64 ∧
      (ticks ≠ 0 → t.bootCycles + (k.ticks + ticks) * t.interval < 2 ^ 64)
  | .mapDevice slot uva => ∀ cap r, Devices.resolve k.table pid slot RIGHT_MAP = .ok cap →
      Devices.deviceRequest cap.obj = some r → uva % PAGE_SIZE = 0 → r.pa % PAGE_SIZE = 0 →
        uva + min r.pages (k.room + 1) * PAGE_SIZE ≤ 2 ^ 64
  | .dmaMap slot uva => ∀ cap r, Devices.resolve k.table pid slot RIGHT_MAP = .ok cap →
      Devices.dmaRequest cap.obj = some r → uva % PAGE_SIZE = 0 → r.pa % PAGE_SIZE = 0 →
        uva + min r.pages (k.room + 1) * PAGE_SIZE ≤ 2 ^ 64
  | .irqWait slot timeout => ∀ cap line, Devices.resolve k.table pid slot RIGHT_IRQ = .ok cap →
      cap.obj = .irq line → k.ticks + timeout < 2 ^ 64
  | .modelOpen ptr len => len ≤ 64 → CopyFits (k.devices.spaces pid) ptr len
  | .modelMap id uva => uva % PAGE_SIZE = 0 → ∀ m, k.store.model id = some m →
      uva + (m.size + PAGE_SIZE - 1) / PAGE_SIZE * PAGE_SIZE < 2 ^ 64
  | .modelInfo id out => (k.store.model id).isSome → CopyFits (k.devices.spaces pid) out 64
  | .tensorSubmit qos segments deadlineUs => 0 < segments → segments ≤ 100000 →
      segments * k.dev.usPerSegment * Tensor.DEVICE_POWER_MW < 2 ^ 64 ∧
      (deadlineUs ≠ 0 → k.nowUs + deadlineUs < 2 ^ 64 ∧
        ((Tensor.temperatureLocked k.dev k.nowUs).tempMilliC < Tensor.thermalLimit (qosOf qos) →
          segments * k.dev.usPerSegment +
            Tensor.ahead k.dev.jobs (qosOf qos) k.dev.usPerSegment < 2 ^ 64))
  | .tensorWait _ timeout => k.ticks + max timeout 1 < 2 ^ 64
  | .tensorStat id out =>
      (Dir.lookup Tensor.Job.id k.dev.jobs id).isSome → CopyFits (k.devices.spaces pid) out 88
  | _ => True

/-! ## Copies -/

/-- All of these results are in range. -/
def Fits (l : List ℤ) : Prop := ∀ v ∈ l, U64 v

@[simp] theorem fits_nil : Fits [] := nofun

@[simp] theorem fits_cons {v : ℤ} {l : List ℤ} : Fits (v :: l) ↔ U64 v ∧ Fits l :=
  List.forall_mem_cons

@[simp] theorem fits_append {l l' : List ℤ} : Fits (l ++ l') ↔ Fits l ∧ Fits l' :=
  List.forall_mem_append

@[simp] theorem u64_natCast {n : ℕ} : U64 n ↔ n < 2 ^ 64 := by
  unfold U64
  omega

section

variable {τ : Type*} {space : PageMap τ} {uva len fuel done : ℕ}

/-- From byte `done` on, the copy ends below the top of the address space, or stops there. -/
def FitsFrom (space : PageMap τ) (uva len done : ℕ) : Prop :=
  len ≤ done ∨ uva + len ≤ 2 ^ 64 ∨
    ∃ i, done ≤ i ∧ i < len ∧ uva + i < 2 ^ 64 ∧ space.translate (uva + i) = none

/-- An iteration that copies comes no further than the next page. -/
theorem fitsFrom_chunk {pa : ℕ} (hva : uva + done < 2 ^ 64) (hdone : done < len)
    (hpa : space.translate (uva + done) = some pa) :
    FitsFrom space uva len done ↔ FitsFrom space uva len (done + chunk uva len done) := by
  constructor
  · rintro (h | h | ⟨i, hi, hlt, htop, hnone⟩)
    · omega
    · exact .inr (.inl h)
    · rcases Nat.lt_or_ge i (done + chunk uva len done) with hin | hout
      · -- the page is mapped as far as the iteration goes
        obtain ⟨j, rfl⟩ := Nat.exists_eq_add_of_le hi
        have hsome : (space.translate (uva + (done + j))).isSome =
            (space.translate (uva + done)).isSome :=
          Mm.isSome_translate_chunk (Nat.lt_of_add_lt_add_left hin)
        rw [hnone, hpa] at hsome
        cases hsome
      · exact .inr (.inr ⟨i, hout, hlt, htop, hnone⟩)
  · rintro (h | h | ⟨i, hi, hlt, htop, hnone⟩)
    · have hpage : (uva + done) % PAGE_SIZE + chunk uva len done ≤ PAGE_SIZE := Mm.chunk_fits
      have hend : done + chunk uva len done ≤ max done len := Mm.chunk_le
      have hsize : PAGE_SIZE = 4096 := rfl
      refine .inr (.inl ?_)
      rw [hsize] at hpage
      omega
    · exact .inr (.inl h)
    · exact .inr (.inr ⟨i, by omega, hlt, htop, hnone⟩)

theorem copySums_fits_iff (hlen : len < 2 ^ 64)
    (hframes : ∀ page leaf, space page = some leaf → leaf.frame + PAGE_SIZE ≤ 2 ^ 48) :
    len ≤ done + fuel → (Fits (copySums space uva len fuel done) ↔ FitsFrom space uva len done) := by
  induction fuel generalizing done with
  | zero => exact fun h => iff_of_true fits_nil (.inl h)
  | succ fuel ih =>
    intro hfuel
    rw [copySums]
    by_cases hdone : done < len
    · rw [if_pos hdone]
      dsimp only
      by_cases hva : uva + done < 2 ^ 64
      · cases htranslate : space.translate (uva + done) with
        | none =>
          exact iff_of_true (fits_cons.mpr ⟨u64_natCast.mpr hva, fits_nil⟩)
            (.inr (.inr ⟨done, le_rfl, hdone, hva, htranslate⟩))
        | some pa =>
          have hpos : 0 < chunk uva len done := Mm.chunk_pos hdone
          have hend : done + chunk uva len done ≤ max done len := Mm.chunk_le
          have hmod := Nat.mod_lt (uva + done) PAGE_SIZE_pos
          have hpa : pa < 2 ^ 48 := by
            obtain ⟨leaf, hleaf, rfl⟩ := Option.map_eq_some_iff.mp htranslate
            have hframe := hframes _ _ hleaf
            omega
          rw [fitsFrom_chunk hva hdone htranslate, ← ih (by omega)]
          have hsize : (PAGE_SIZE : ℤ) = 4096 := rfl
          have hoffset : (PHYS_OFFSET : ℤ) = 0xFFFF000000000000 := rfl
          simp only [fits_cons, fits_append, fits_nil, and_true]
          refine ⟨fun h => h.2.2, fun h => ⟨?_, ⟨?_, ?_, ?_, ?_⟩, h⟩⟩
          all_goals
            unfold U64
            omega
      · refine iff_of_false (fun h => hva (u64_natCast.mp (fits_cons.mp h).1)) ?_
        rintro (h | h | ⟨i, hi, -, htop, -⟩)
        all_goals omega
    · rw [if_neg hdone]
      exact iff_of_true fits_nil (.inl (Nat.not_lt.mp hdone))

/-- A copy stays in range unless it comes to the top of the address space. -/
theorem copySums_iff (huva : uva < 2 ^ 64) (hlen : len < 2 ^ 64)
    (hframes : ∀ page leaf, space page = some leaf → leaf.frame + PAGE_SIZE ≤ 2 ^ 48) :
    Fits (copySums space uva len len 0) ↔ CopyFits space uva len := by
  rw [copySums_fits_iff hlen hframes (by omega)]
  constructor
  · rintro (h | h | ⟨i, -, hlt, htop, hnone⟩)
    · exact .inl (by omega)
    · exact .inl h
    · exact .inr ⟨i, hlt, htop, hnone⟩
  · rintro (h | ⟨i, hlt, htop, hnone⟩)
    · exact .inr (.inl h)
    · exact .inr (.inr ⟨i, Nat.zero_le i, hlt, htop, hnone⟩)

end

/-! ## Mappings -/

section

variable {uva pa pages room start left cost acc : ℕ} {k : Kernel}

theorem fits_flatMap_range {n : ℕ} {f : ℕ → List ℤ} :
    Fits ((List.range n).flatMap f) ↔ ∀ i < n, Fits (f i) := by
  unfold Fits
  simp only [List.mem_flatMap, List.mem_range]
  exact ⟨fun h i hi v hv => h v ⟨i, hi, hv⟩, fun h v ⟨i, hi, hv⟩ => h i hi v hv⟩

/-- `map` stays in range unless it comes to the top of the address space. -/
theorem mapSums_iff (huva : uva < 2 ^ 64) (hpa : pa + pages * PAGE_SIZE ≤ 2 ^ 48) :
    Fits (mapSums uva pa pages room) ↔ (uva % PAGE_SIZE = 0 → pa % PAGE_SIZE = 0 →
      uva + min pages (room + 1) * PAGE_SIZE ≤ 2 ^ 64) := by
  unfold mapSums
  have hsize' : PAGE_SIZE = 4096 := rfl
  by_cases halign : uva % PAGE_SIZE ≠ 0 ∨ pa % PAGE_SIZE ≠ 0
  · rw [if_pos halign]
    exact iff_of_true fits_nil fun h h' => absurd halign (by simp [h, h'])
  · rw [if_neg halign, fits_flatMap_range]
    push Not at halign
    rw [hsize'] at hpa halign ⊢
    constructor
    · intro h _ _
      rcases Nat.eq_zero_or_pos (min pages (room + 1)) with hzero | hpos
      · omega
      · -- the last page that it comes to
        have hlast := h (min pages (room + 1) - 1) (by omega)
        simp only [fits_append, fits_cons, U64] at hlast
        omega
    · intro h i hi
      have hle := h halign.1 halign.2
      have hoffset : U64 ((i : ℤ) * 4096) := by
        unfold U64
        omega
      refine fits_append.mpr ⟨?_, ?_⟩
      · refine fits_cons.mpr ⟨hoffset, fits_cons.mpr ⟨?_, fits_nil⟩⟩
        unfold U64
        omega
      · split_ifs with hroom
        · refine fits_cons.mpr ⟨hoffset, fits_cons.mpr ⟨?_, fits_nil⟩⟩
          unfold U64
          omega
        · exact fits_nil

/-- A region that has been mapped. -/
theorem regionSums_iff (uva pages : ℕ) :
    Fits (regionSums uva pages) ↔ uva + pages * PAGE_SIZE < 2 ^ 64 := by
  unfold regionSums
  have hsize : (PAGE_SIZE : ℤ) = 4096 := rfl
  have hsize' : PAGE_SIZE = 4096 := rfl
  rw [fits_append, fits_flatMap_range, hsize, hsize']
  constructor
  · rintro ⟨h, -⟩
    simp only [fits_cons, U64] at h
    omega
  · intro h
    refine ⟨?_, fun i hi => ?_⟩
    · simp only [fits_cons, fits_nil, and_true, U64]
      omega
    · simp only [fits_cons, fits_nil, and_true, U64]
      omega

/-! ## Files -/

/-- What `open` adds up stays within the file. -/
theorem openSums_fits {sectors s : ℕ} (h : start + s + sectors < 2 ^ 64) (hleft : left < 2 ^ 64) :
    Fits (openSums k start sectors s left) := by
  induction sectors generalizing s left with
  | zero => exact fits_nil
  | succ sectors ih =>
    rw [openSums]
    refine fits_cons.mpr ⟨?_, ?_⟩
    · unfold U64
      omega
    · cases k.read (start + s) with
      | none => exact fits_nil
      | some sector =>
        refine fits_cons.mpr ⟨?_, ih (by omega) (by omega)⟩
        unfold U64
        omega

theorem openByNameSums_fits {t : Timer} (h : Bounded k t) (name : String) :
    Fits (openByNameSums k name) := by
  unfold openByNameSums
  cases hfind : k.published.find? fun p => p.name = name with
  | none => exact fits_nil
  | some p =>
    have hfile := h.files p (List.mem_of_find?_eq_some hfind)
    have hsectors : (p.size + SECTOR_SIZE - 1) / SECTOR_SIZE ≤ p.size := by
      have hsector : SECTOR_SIZE = 512 := rfl
      rw [hsector]
      omega
    refine fits_append.mpr ⟨openSums_fits (by omega) (by omega), ?_⟩
    cases ModelStore.hashFile k.read p.startSector p.size with
    | none => exact fits_nil
    | some hash =>
      dsimp only
      cases hmodel : k.store.models.find? fun m => m.hash = hash with
      | none =>
        have hid := h.modelIds
        refine fits_cons.mpr ⟨?_, fits_nil⟩
        unfold U64
        omega
      | some m =>
        have hrefs := h.refs m (List.mem_of_find?_eq_some hmodel)
        refine fits_cons.mpr ⟨?_, fits_nil⟩
        unfold U64
        omega

/-! ## Jobs -/

/-- The partial sums are in range when the whole sum is. -/
theorem aheadSums_fits : ∀ {acc : ℕ} {jobs : List Tensor.Job},
    (∀ j ∈ jobs, j.doneSegments ≤ j.segments ∧ j.segments < 2 ^ 32) →
    acc + (jobs.map fun j => (j.segments - j.doneSegments) * cost).sum < 2 ^ 64 →
      Fits (aheadSums cost acc jobs) := by
  intro acc jobs hdone hsum
  induction jobs generalizing acc with
  | nil => exact fits_nil
  | cons j jobs ih =>
    rw [List.map_cons, List.sum_cons] at hsum
    obtain ⟨hle, hlt⟩ := hdone j List.mem_cons_self
    have hcast : (j.segments : ℤ) - j.doneSegments = (j.segments - j.doneSegments : ℕ) := by omega
    rw [aheadSums, hcast, ← Nat.cast_mul, ← Nat.cast_add]
    simp only [List.cons_append, List.nil_append, fits_cons, u64_natCast]
    refine ⟨by omega, by omega, by omega, ih (fun x hx => hdone x (.tail _ hx)) ?_⟩
    rw [Nat.add_assoc]
    exact hsum

end

/-! ## The calls -/

/-- The arguments of a call. -/
def Call.args : Call → List ℕ
  | .exit code => [code]
  | .write ptr len => [ptr, len]
  | .send slot ptr len => [slot, ptr, len]
  | .recv slot ptr len fromPtr => [slot, ptr, len, fromPtr]
  | .sleep n => [n]
  | .mapDevice slot uva => [slot, uva]
  | .dmaMap slot uva => [slot, uva]
  | .irqWait slot timeout => [slot, timeout]
  | .modelOpen ptr len => [ptr, len]
  | .modelMap id uva => [id, uva]
  | .modelInfo id out => [id, out]
  | .tensorSubmit qos segments deadlineUs => [qos, segments, deadlineUs]
  | .tensorWait id timeout => [id, timeout]
  | .tensorStat id out => [id, out]
  | _ => []

/-- They come from registers. -/
theorem args_decode (r : Regs) : ∀ v ∈ (Call.decode r).args, v < 2 ^ 64 := by
  have h0 := r.x0.toNat_lt
  have h1 := r.x1.toNat_lt
  have h2 := r.x2.toNat_lt
  have h3 := r.x3.toNat_lt
  unfold Call.decode
  dsimp only
  split <;> simp only [Call.args, List.forall_mem_cons, List.not_mem_nil, IsEmpty.forall_iff,
    implies_true, and_true] <;> omega

section

variable {k : Kernel} {t : Timer} {pid : ℕ}

theorem copyToSums_iff (h : Bounded k t) (hpid : pid < k.table.length) {out len : ℕ}
    (hout : out < 2 ^ 64) (hlen : len < 2 ^ 64) :
    Fits (copyToSums k pid out len) ↔ CopyFits (k.devices.spaces pid) out len := by
  rw [copyToSums, if_pos hpid]
  exact copySums_iff hout hlen (h.frames pid)

theorem copyFromSums_iff (h : Bounded k t) (hpid : pid < k.table.length) {ptr len : ℕ}
    (hptr : ptr < 2 ^ 64) (hlen : len < 2 ^ 64) :
    Fits (copyFromSums k pid ptr len) ↔
      (len ≤ Mm.MAX_TRANSFER → CopyFits (k.devices.spaces pid) ptr len) := by
  unfold copyFromSums
  by_cases hmax : len ≤ Mm.MAX_TRANSFER
  · rw [if_pos ⟨hpid, hmax⟩, copySums_iff hptr hlen (h.frames pid)]
    exact ⟨fun hfits _ => hfits, fun hfits => hfits hmax⟩
  · rw [if_neg fun hand => hmax hand.2]
    exact iff_of_true fits_nil fun hle => absurd hle hmax

theorem sendSums_iff (h : Bounded k t) (hpid : pid < k.table.length) {slot ptr len : ℕ}
    (hptr : ptr < 2 ^ 64) (hlen : len < 2 ^ 64) :
    Fits (sendSums k pid slot ptr len) ↔ InRange k t pid (.send slot ptr len) := by
  rw [sendSums, InRange]
  cases hcap : Proc.lookupCap k.table pid slot with
  | none => exact iff_of_true fits_nil fun cap hc => by cases hc
  | some cap =>
    dsimp only
    by_cases hdead : cap.revoked ∨ !cap.allows RIGHT_SEND
    · rw [if_pos hdead]
      refine iff_of_true fits_nil fun c hc hrevoked hallows => ?_
      cases hc
      simp [hrevoked, hallows] at hdead
    · rw [if_neg hdead]
      simp only [Bool.not_eq_true', not_or, Bool.not_eq_true, Bool.not_eq_false] at hdead
      cases hchannel : cap.channel with
      | none =>
        refine iff_of_true fits_nil fun c hc _ _ hsome => ?_
        cases hc
        rw [hchannel] at hsome
        cases hsome
      | some channel =>
        have hsent : Fits (match k.withSpace pid fun space => Mm.copyFromUser space k.mem ptr len,
            k.chans[channel]? with
          | some (.ok _), some ch => [(ch.sent : ℤ) + 1]
          | _, _ => []) := by
          split
          · next ch _ hch =>
            have hcount := h.channels ch (List.mem_of_getElem? hch)
            refine fits_cons.mpr ⟨?_, fits_nil⟩
            unfold U64
            omega
          · exact fits_nil
        rw [fits_append, and_iff_left hsent, copyFromSums_iff h hpid hptr hlen]
        refine ⟨fun hfits c _ _ _ _ => hfits, fun hfits => hfits cap rfl hdead.1 hdead.2 ?_⟩
        rw [hchannel]
        rfl

theorem recvSums_iff (h : Bounded k t) (hpid : pid < k.table.length) {slot ptr len fromPtr : ℕ}
    (hptr : ptr < 2 ^ 64) (hlen : len < 2 ^ 64) (hfrom : fromPtr < 2 ^ 64) :
    Fits (recvSums k pid slot ptr len fromPtr) ↔ InRange k t pid (.recv slot ptr len fromPtr) := by
  rw [recvSums, InRange]
  cases hresolve : Receive.resolve k.table pid slot with
  | error e => exact iff_of_true fits_nil fun channel msg rest hc => by cases hc
  | ok channel =>
    dsimp only
    have hqueued : ∀ ch, k.chans[channel]? = some ch → Ipc.queued k.chans channel = ch.queue :=
      fun ch hch => by rw [Ipc.queued, hch]; rfl
    cases hch : k.chans[channel]? with
    | none =>
      refine iff_of_true fits_nil fun c msg rest hc hq => ?_
      cases hc
      rw [Ipc.queued, hch] at hq
      cases hq
    | some ch =>
      have hcount := h.channels ch (List.mem_of_getElem? hch)
      dsimp only
      cases hqueue : ch.queue with
      | nil =>
        refine iff_of_true fits_nil fun c msg rest hc hq => ?_
        cases hc
        rw [hqueued ch hch, hqueue] at hq
        cases hq
      | cons msg rest =>
        have hreceived : U64 ((ch.received : ℤ) + 1) := by
          unfold U64
          omega
        have hbody : min msg.bytes.length len < 2 ^ 64 := by omega
        have htaken : (msg.bytes.take (min msg.bytes.length len)).length =
            min msg.bytes.length len := by
          rw [List.length_take]
          omega
        have hcopied : (Mm.copyToUser (k.devices.spaces pid) ptr
            (msg.bytes.take (min msg.bytes.length len)) k.mem).1 = .ok () ↔
              Delivery.Mapped (k.devices.spaces pid) ptr (min msg.bytes.length len) := by
          rw [Mm.copyToUser_ok_iff, htaken]
          exact Iff.rfl
        dsimp only
        rw [List.cons_append, fits_cons, fits_append, copyToSums_iff h hpid hptr hbody,
          and_iff_right hreceived]
        have hsource : Fits (match (Mm.copyToUser (k.devices.spaces pid) ptr
              (msg.bytes.take (min msg.bytes.length len)) k.mem).1 with
            | .ok () => if fromPtr ≠ 0 then copyToSums k pid fromPtr 8 else []
            | .error _ => []) ↔
            (Delivery.Mapped (k.devices.spaces pid) ptr (min msg.bytes.length len) → fromPtr ≠ 0 →
              CopyFits (k.devices.spaces pid) fromPtr 8) := by
          rw [← hcopied]
          cases (Mm.copyToUser (k.devices.spaces pid) ptr
              (msg.bytes.take (min msg.bytes.length len)) k.mem).1 with
          | error e => exact iff_of_true fits_nil fun hok => by cases hok
          | ok u =>
            dsimp only
            by_cases hzero : fromPtr ≠ 0
            · rw [if_pos hzero, copyToSums_iff h hpid hfrom (by decide)]
              exact ⟨fun hfits _ _ => hfits, fun hfits => hfits rfl hzero⟩
            · rw [if_neg hzero]
              exact iff_of_true fits_nil fun _ hne => absurd hne hzero
        rw [hsource]
        constructor
        · rintro hfits c m rest' hc hq
          cases hc
          rw [hqueued ch hch, hqueue] at hq
          cases hq
          exact hfits
        · exact fun hfits => hfits channel msg rest rfl (by rw [hqueued ch hch, hqueue])

/-- A capability that a slot resolves to is in the table. -/
theorem lookupCap_of_resolve {table : Proc.Table} {slot : ℕ} {right : UInt32} {cap : Cap}
    (h : Devices.resolve table pid slot right = .ok cap) :
    Proc.lookupCap table pid slot = some cap := by
  unfold Devices.resolve at h
  cases hcap : Proc.lookupCap table pid slot with
  | none =>
    rw [hcap] at h
    cases h
  | some c =>
    rw [hcap] at h
    dsimp only at h
    split_ifs at h
    cases h
    rfl

/-- A request that stays below the end of physical memory. -/
theorem mapCapSums_iff {request : Obj → Option Devices.Request} {slot uva : ℕ} (huva : uva < 2 ^ 64)
    (hrequest : ∀ cap r, Devices.resolve k.table pid slot RIGHT_MAP = .ok cap →
      request cap.obj = some r → r.pa + r.pages * PAGE_SIZE ≤ 2 ^ 48 ∧
        ∀ base size, cap.obj = .mmio base size → base + size ≤ 2 ^ 48) :
    Fits (mapCapSums request k pid slot uva) ↔
      ∀ cap r, Devices.resolve k.table pid slot RIGHT_MAP = .ok cap → request cap.obj = some r →
        uva % PAGE_SIZE = 0 → r.pa % PAGE_SIZE = 0 →
          uva + min r.pages (k.room + 1) * PAGE_SIZE ≤ 2 ^ 64 := by
  unfold mapCapSums
  cases hresolve : Devices.resolve k.table pid slot RIGHT_MAP with
  | error e => exact iff_of_true fits_nil fun cap r hc => by cases hc
  | ok cap =>
    dsimp only
    unfold objSums
    cases hr : request cap.obj with
    | none =>
      refine iff_of_true fits_nil fun c r hc hsome => ?_
      cases hc
      rw [hr] at hsome
      cases hsome
    | some r =>
      obtain ⟨hpa, hwindow⟩ := hrequest cap r hresolve hr
      have hoffsets : Fits (match cap.obj with
          | .mmio base size =>
            let offset : ℤ := base - pageAlignDown base
            [offset, offset + size]
          | _ => []) := by
        cases hobj : cap.obj with
        | mmio base size =>
          have hle := hwindow base size hobj
          have halign : pageAlignDown base ≤ base := Nat.div_mul_le_self _ _
          simp only [fits_cons, fits_nil, and_true, U64]
          omega
        | _ => exact fits_nil
      dsimp only
      rw [fits_append, and_iff_right hoffsets, mapSums_iff huva hpa]
      constructor
      · rintro hfits c r' hc hsome
        cases hc
        cases hr.symm.trans hsome
        exact hfits
      · exact fun hfits => hfits cap r rfl hr

theorem mapDevice_iff (h : Bounded k t) {slot uva : ℕ} (huva : uva < 2 ^ 64) :
    Fits (mapCapSums Devices.deviceRequest k pid slot uva) ↔
      InRange k t pid (.mapDevice slot uva) := by
  rw [InRange]
  refine mapCapSums_iff huva fun cap r hresolve hr => ?_
  have hlookup := lookupCap_of_resolve hresolve
  cases hobj : cap.obj with
  | mmio base size =>
    have hwindow := h.registers pid slot cap base size hlookup hobj
    have halign : pageAlignDown base ≤ base := Nat.div_mul_le_self _ _
    rw [hobj] at hr
    cases hr
    have hsize : PAGE_SIZE = 4096 := rfl
    refine ⟨?_, fun b n hbn => ?_⟩
    · rw [hsize] at hwindow ⊢
      dsimp only
      omega
    · cases hbn
      omega
  | _ =>
    rw [hobj] at hr
    cases hr

theorem dmaMap_iff (h : Bounded k t) {slot uva : ℕ} (huva : uva < 2 ^ 64) :
    Fits (mapCapSums Devices.dmaRequest k pid slot uva) ↔ InRange k t pid (.dmaMap slot uva) := by
  rw [InRange]
  refine mapCapSums_iff huva fun cap r hresolve hr => ?_
  have hlookup := lookupCap_of_resolve hresolve
  cases hobj : cap.obj with
  | dma base pages =>
    have hregion := h.memory pid slot cap base pages hlookup hobj
    rw [hobj] at hr
    cases hr
    exact ⟨hregion, fun b n hbn => by cases hbn⟩
  | _ =>
    rw [hobj] at hr
    cases hr

theorem irqWaitSums_iff {slot timeout : ℕ} :
    Fits (irqWaitSums k pid slot timeout) ↔ InRange k t pid (.irqWait slot timeout) := by
  rw [irqWaitSums, InRange]
  cases hresolve : Devices.resolve k.table pid slot RIGHT_IRQ with
  | error e => exact iff_of_true fits_nil fun cap line hc => by cases hc
  | ok cap =>
    dsimp only
    cases hobj : cap.obj with
    | irq line =>
      rw [fits_cons, and_iff_left fits_nil, ← Nat.cast_add, u64_natCast]
      exact ⟨fun hlt c l _ _ => hlt, fun hlt => hlt cap line rfl hobj⟩
    | _ =>
      refine iff_of_true fits_nil fun c line hc hirq => ?_
      cases hc
      rw [hobj] at hirq
      cases hirq

theorem modelOpenSums_iff (h : Bounded k t) (hpid : pid < k.table.length) {ptr len : ℕ}
    (hptr : ptr < 2 ^ 64) :
    Fits (modelOpenSums k pid ptr len) ↔ InRange k t pid (.modelOpen ptr len) := by
  rw [modelOpenSums, InRange]
  by_cases hlen : 64 < len
  · rw [if_pos hlen]
    exact iff_of_true fits_nil fun hle => absurd hlen (Nat.not_lt.mpr hle)
  · have hname : Fits (match k.withSpace pid fun space => Mm.copyFromUser space k.mem ptr len with
        | some (.ok bytes) =>
          match Jlfs.fromUtf8 bytes with
          | some name => openByNameSums k name
          | none => []
        | _ => []) := by
      split
      · split
        · exact openByNameSums_fits h _
        · exact fits_nil
      · exact fits_nil
    have hmax : len ≤ Mm.MAX_TRANSFER := by
      have hsize : Mm.MAX_TRANSFER = 4096 := rfl
      omega
    rw [if_neg hlen, fits_append, and_iff_left hname, copyFromSums_iff h hpid hptr (by omega)]
    exact ⟨fun hfits _ => hfits hmax, fun hfits _ => hfits (Nat.not_lt.mp hlen)⟩

theorem modelMapSums_iff {id uva : ℕ} :
    Fits (modelMapSums k id uva) ↔ InRange k t pid (.modelMap id uva) := by
  rw [modelMapSums, InRange]
  by_cases halign : uva % PAGE_SIZE = 0
  · rw [if_neg (not_not.mpr halign)]
    cases hm : k.store.model id with
    | none => exact iff_of_true fits_nil fun _ m hsome => by cases hsome
    | some m =>
      dsimp only
      rw [regionSums_iff]
      constructor
      · rintro hlt _ m' hsome
        cases hsome
        exact hlt
      · exact fun hlt => hlt halign m rfl
  · rw [if_pos halign]
    exact iff_of_true fits_nil fun hzero => absurd hzero halign

theorem modelInfoSums_iff (h : Bounded k t) (hpid : pid < k.table.length) {id out : ℕ}
    (hout : out < 2 ^ 64) :
    Fits (modelInfoSums k pid id out) ↔ InRange k t pid (.modelInfo id out) := by
  rw [modelInfoSums, InRange]
  cases k.store.model id with
  | none => exact iff_of_true fits_nil fun hsome => by cases hsome
  | some m =>
    dsimp only
    rw [copyToSums_iff h hpid hout (by decide)]
    exact ⟨fun hfits _ => hfits, fun hfits => hfits rfl⟩

theorem tensorStatSums_iff (h : Bounded k t) (hpid : pid < k.table.length) {id out : ℕ}
    (hout : out < 2 ^ 64) :
    Fits (tensorStatSums k pid id out) ↔ InRange k t pid (.tensorStat id out) := by
  rw [tensorStatSums, InRange]
  cases Dir.lookup Tensor.Job.id k.dev.jobs id with
  | none => exact iff_of_true fits_nil fun hsome => by cases hsome
  | some j =>
    dsimp only
    rw [copyToSums_iff h hpid hout (by decide)]
    exact ⟨fun hfits _ => hfits, fun hfits => hfits rfl⟩

/-- A sleeper is looked at by the timer as long as its time has not come. -/
theorem sleepSums_iff (h : Bounded k t) {ticks : ℕ} :
    Fits (sleepSums k t ticks) ↔ InRange k t pid (.sleep ticks) := by
  have hboot := h.bootCycles
  rw [sleepSums, InRange, fits_cons, u64_natCast]
  refine and_congr_right fun _ => ?_
  by_cases hidle : ticks = 0 ∨ t.interval = 0
  · rw [if_pos hidle]
    refine iff_of_true fits_nil fun hne => ?_
    rw [hidle.resolve_left hne, Nat.mul_zero]
    omega
  · rw [if_neg hidle, ← Nat.cast_mul, ← Nat.cast_add]
    simp only [fits_cons, fits_nil, and_true, u64_natCast]
    exact ⟨fun hfits _ => hfits.2, fun hlt => ⟨by have := hlt fun hz => hidle (.inl hz); omega,
      hlt fun hz => hidle (.inl hz)⟩⟩

theorem temperatureSums_fits (h : Bounded k t) : Fits (temperatureSums k.dev k.nowUs) := by
  have hnow := h.nowUs
  unfold temperatureSums
  split_ifs
  · exact fits_nil
  · have hdecay : (Tensor.DECAY_PER_MS_MILLI_C : ℤ) = 120 := rfl
    refine fits_cons.mpr ⟨?_, fits_nil⟩
    rw [hdecay]
    unfold U64
    omega

theorem tensorSubmitSums_iff (h : Bounded k t) {qos segments deadlineUs : ℕ} :
    Fits (tensorSubmitSums k qos segments deadlineUs) ↔
      InRange k t pid (.tensorSubmit qos segments deadlineUs) := by
  rw [tensorSubmitSums, InRange]
  by_cases hsegments : segments = 0 ∨ 100000 < segments
  · rw [if_pos hsegments]
    exact iff_of_true fits_nil fun hpos hmax => by omega
  · have hpower : Tensor.DEVICE_POWER_MW = 2500 := rfl
    have hid := h.jobIds
    have hnext : U64 ((k.dev.nextId : ℤ) + 1) := by
      unfold U64
      omega
    have hneeded : Fits [(segments : ℤ) * k.dev.usPerSegment,
        ((segments * k.dev.usPerSegment : ℕ) : ℤ) * Tensor.DEVICE_POWER_MW] ↔
        segments * k.dev.usPerSegment * Tensor.DEVICE_POWER_MW < 2 ^ 64 := by
      rw [← Nat.cast_mul, ← Nat.cast_mul, hpower]
      simp only [fits_cons, fits_nil, and_true, u64_natCast]
      omega
    have hallowed : 0 < segments ∧ segments ≤ 100000 := by omega
    simp only [if_neg hsegments, submitSums, fits_append, fits_cons, hneeded, hnext, true_and,
      and_iff_left (temperatureSums_fits h), forall_prop_of_true hallowed.1,
      forall_prop_of_true hallowed.2, and_assoc]
    refine and_congr_right fun _ => ?_
    by_cases hdeadline : deadlineUs = 0
    · rw [if_pos hdeadline]
      refine iff_of_true ⟨?_, fits_nil⟩ fun hne => absurd hdeadline hne
      split_ifs <;> exact fits_nil
    · rw [if_neg hdeadline, forall_prop_of_true hdeadline, and_comm]
      refine and_congr ?_ ?_
      · rw [fits_cons, and_iff_left fits_nil, ← Nat.cast_add, u64_natCast]
      · by_cases hhot : Tensor.thermalLimit (qosOf qos) ≤
            (Tensor.temperatureLocked k.dev k.nowUs).tempMilliC
        · rw [if_pos hhot]
          exact iff_of_true fits_nil fun hlt => absurd hhot (Nat.not_le.mpr hlt)
        · rw [if_neg hhot, forall_prop_of_true (Nat.not_le.mp hhot)]
          dsimp only
          rw [fits_append, fits_cons, and_iff_left fits_nil, ← Nat.cast_add, u64_natCast]
          refine and_iff_right_of_imp fun hlt => aheadSums_fits
            (fun j hj => h.segments j (List.mem_of_mem_filter hj)) ?_
          rw [Nat.zero_add]
          exact Nat.lt_of_le_of_lt (Nat.le_add_left _ _) hlt

/-- All operations of a call are in range exactly when what the process has chosen does not take one
over the end of the range. -/
theorem inRange_iff (h : Bounded k t) (hpid : pid < k.table.length) (r : Regs) :
    Fits (sums k t pid (.decode r)) ↔ InRange k t pid (.decode r) := by
  have hargs := args_decode r
  cases hcall : Call.decode r with
  | exit code => exact iff_of_true fits_nil trivial
  | yield => exact iff_of_true fits_nil trivial
  | getpid => exact iff_of_true fits_nil trivial
  | ticks => exact iff_of_true fits_nil trivial
  | unknown => exact iff_of_true fits_nil trivial
  | write ptr len =>
    simp only [hcall, Call.args, List.forall_mem_cons] at hargs
    exact copyFromSums_iff h hpid hargs.1 hargs.2.1
  | send slot ptr len =>
    simp only [hcall, Call.args, List.forall_mem_cons] at hargs
    exact sendSums_iff h hpid hargs.2.1 hargs.2.2.1
  | recv slot ptr len fromPtr =>
    simp only [hcall, Call.args, List.forall_mem_cons] at hargs
    exact recvSums_iff h hpid hargs.2.1 hargs.2.2.1 hargs.2.2.2.1
  | sleep ticks => exact sleepSums_iff h
  | mapDevice slot uva =>
    simp only [hcall, Call.args, List.forall_mem_cons] at hargs
    exact mapDevice_iff h hargs.2.1
  | dmaMap slot uva =>
    simp only [hcall, Call.args, List.forall_mem_cons] at hargs
    exact dmaMap_iff h hargs.2.1
  | irqWait slot timeout => exact irqWaitSums_iff
  | modelOpen ptr len =>
    simp only [hcall, Call.args, List.forall_mem_cons] at hargs
    exact modelOpenSums_iff h hpid hargs.1
  | modelMap id uva => exact modelMapSums_iff
  | modelInfo id out =>
    simp only [hcall, Call.args, List.forall_mem_cons] at hargs
    exact modelInfoSums_iff h hpid hargs.2.1
  | tensorSubmit qos segments deadlineUs => exact tensorSubmitSums_iff h
  | tensorWait id timeout =>
    show Fits [(k.ticks : ℤ) + (max timeout 1 : ℕ)] ↔ _
    rw [fits_cons, and_iff_left fits_nil, ← Nat.cast_add, u64_natCast, InRange]
  | tensorStat id out =>
    simp only [hcall, Call.args, List.forall_mem_cons] at hargs
    exact tensorStatSums_iff h hpid hargs.2.1

end

/-! ## A call that wraps around -/

/-- One tick after boot. -/
def demoTick : Kernel := { demo with ticks := 1 }

/-- 10 ms at 62.5 MHz. -/
def demoTimer : Timer := ⟨625000, 1000⟩

/-- `SYS_SLEEP` for `u64::MAX` ticks. -/
def demoSleep : Regs := ⟨0xFFFFFFFFFFFFFFFF, 0, 0, 0, 7⟩

theorem lookupCap_demoTick (pid slot : ℕ) : Proc.lookupCap demoTick.table pid slot = none := by
  cases pid with
  | zero => exact Kernel.Capless.lookupCap (show demoTick.Capless 0 from rfl) slot
  | succ pid =>
    unfold Proc.lookupCap
    split_ifs <;> rfl

theorem bounded_demoTick : Bounded demoTick demoTimer where
  ticks := by decide
  nowUs := by decide
  bootCycles := by decide
  channels := nofun
  modelIds := by decide
  refs := by decide
  jobIds := by decide
  segments := nofun
  frames := nofun
  registers pid slot cap base size hcap := by
    rw [lookupCap_demoTick] at hcap
    cases hcap
  memory pid slot cap base pages hcap := by
    rw [lookupCap_demoTick] at hcap
    cases hcap
  files := nofun

theorem inRange_iff_demoTick : Fits (sums demoTick demoTimer 0 (.decode demoSleep)) ↔
    InRange demoTick demoTimer 0 (.decode demoSleep) :=
  inRange_iff bounded_demoTick (by decide) demoSleep

/-- The sum of the clock and the ticks to sleep is `2^64`. -/
theorem sleep_wraps : Bounded demoTick demoTimer ∧
    (2 ^ 64 : ℤ) ∈ sums demoTick demoTimer 0 (.decode demoSleep) ∧
    ¬Fits (sums demoTick demoTimer 0 (.decode demoSleep)) := by
  have hsum : (2 ^ 64 : ℤ) ∈ sums demoTick demoTimer 0 (.decode demoSleep) := by decide
  exact ⟨bounded_demoTick, hsum, fun h => absurd (h _ hsum).2 (by decide)⟩

end JungeyOs.Syscall
