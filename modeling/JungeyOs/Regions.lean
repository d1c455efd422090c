import JungeyOs.Audit.Log
import JungeyOs.Jlfs.World
import JungeyOs.Kv.Cache
import JungeyOs.Ota.Update
import Mathlib.Order.Interval.Set.Basic
import Mathlib.Data.Set.Lattice
import Mathlib.Order.CompletePartialOrder

/-!
# Five writers on one disk

The filesystem, the action log, the update service and the KV cache share a disk that
`format` (`kernel/src/fs.rs`, lines 220–256) laid out, each with its own arithmetic for
where it writes. Here they run next to each other, down to the single sector: a call
decides what it writes when it starts, its sectors land one by one with those of the
other calls in between, and what it returns reaches the rest of the kernel at its end.

Results:
* `regions_disjoint`, `region_fits`: the regions of a formatted disk.
* `touches_task`: where each call writes.
* `sound_step`: every step keeps what the kernel relies on (`Sound`).
* `regions_kept`: every sector that lands is in a region of its writer, and no two
  blocks of the KV cache share one.
-/

namespace JungeyOs.Regions

open JungeyOs.Jlfs Blk

/-! ## The regions -/

inductive Region
  | metadata
  | log
  | update
  | audit
  | spill
  deriving DecidableEq, Repr

namespace Region

/-- The first sector of a region, as a mounted filesystem knows it. -/
def first (f : Fs) : Region → ℕ
  | metadata => 0
  | log => LOG_START.toNat
  | update => f.otaStart.toNat
  | audit => f.auditStart.toNat
  | spill => f.spillStart.toNat

/-- The first sector past a region. -/
def past (f : Fs) : Region → ℕ
  | metadata => LOG_START.toNat
  | log => f.logLimit.toNat
  | update => f.otaStart.toNat + f.otaSectors.toNat
  | audit => f.auditStart.toNat + f.auditSectors.toNat
  | spill => f.spillStart.toNat + f.spillSectors.toNat

def sectors (f : Fs) (r : Region) : Set ℕ := Set.Ico (r.first f) (r.past f)

end Region

/-- Who writes. A spill is told apart by the block it is for. -/
inductive Writer
  | fs
  | audit
  | update
  | kv (job : Kv.Job)

/-- The regions of a writer. -/
def Writer.regions : Writer → List Region
  | fs => [.metadata, .log]
  | audit => [.audit]
  | update => [.update]
  | kv _ => [.spill]

/-- The sectors that a spill is for. -/
def spillSectors (job : Kv.Job) : Set ℕ := Set.Ico job.sector (job.sector + Kv.SECTORS_PER_BLOCK)

/-! ## The kernel -/

/-- What a call hands to the rest of the kernel when it returns. -/
inductive Reply
  | nothing
  | fs (f : Fs)
  | log (log : Audit.Log)
  | spilled (job : Kv.Job) (ok : Bool)

/-- A call that was started: the sectors that are still to land, oldest first, and how
it ends. -/
structure Flight where
  who : Writer
  pending : List (ℕ × Sector)
  exit : Exit Reply

/-- What the kernel has in memory, and what was written since it booted. `home` is the
filesystem that the KV cache was pointed at; `mounts` are the `Fs` values that callers
hold; `spills` are the spills decided on, newest first. -/
structure Session where
  home : Fs
  mounts : List Fs
  log : Audit.Log
  cache : Kv.Cache
  spills : List Kv.Job
  flights : List Flight
  written : List (Writer × ℕ)

/-- A machine: its disk and, if it is up, the kernel. -/
structure Machine where
  capacity : ℕ
  disk : Disk
  session : Option Session

/-- A call for one of the subsystems; a number stands for the `Fs` it is given. -/
inductive Request
  | write (i : ℕ) (c : Call)
  | writePhase (phase : UInt64)
  | append (e : Audit.Entry)
  | initialise (i : ℕ)
  | stage (i : ℕ) (c : Ota.Control) (slot : Fin 2) (version : UInt64) (healthy : Bool)
  | writeControl (i : ℕ) (c : Ota.Control)

/-- What other threads do to the KV cache under its lock. -/
inductive CacheOp
  | openSession (owner model now : ℕ)
  | push (id : ℕ) (frame : Option ℕ) (now : ℕ)
  | look (id index now : ℕ)
  | hit (id index frame now : ℕ)
  | publish (id index frame now : ℕ)

def CacheOp.run (c : Kv.Cache) : CacheOp → Kv.Cache
  | openSession owner model now => c.openSession owner model now
  | push id frame now => (c.push id frame now).toOption.getD c
  | look id index now => (c.look id index now).2
  | hit id index frame now => c.hit id index frame now
  | publish id index frame now => c.publish id index frame now

inductive Act
  /-- Power on, `mount`, and `kv::init` on what was mounted. -/
  | boot (reads : List ReadFate)
  | mount (reads : List ReadFate)
  | auditInit (i : ℕ) (reads : List ReadFate)
  /-- A call of a subsystem starts. -/
  | start (q : Request) (writes : List WriteFate) (reads : List ReadFate)
  /-- A round of `make_room` decides on a block, whose frame holds `page`. -/
  | spill (want now : ℕ) (page : Mm.Page) (writes : List WriteFate)
  | cache (op : CacheOp)
  /-- The next sector of call `i` lands. -/
  | land (i : ℕ)
  /-- Call `i`, all of whose sectors landed, returns. -/
  | reply (i now : ℕ)

/-- `fs.write`, `intent::undo` and the like: what is left is one more `Fs` value. -/
def fsTask (f : Fs) (c : Call) : Blk Reply := do
  let f' ← c.run f
  pure (.fs f')

def phaseTask (phase : UInt64) : Blk Reply := do
  writePhase phase
  pure .nothing

def appendTask (log : Audit.Log) (e : Audit.Entry) : Blk Reply := do
  let (_, log') ← Audit.append log e
  pure (.log log')

def initialiseTask (f : Fs) : Blk Reply := do
  let _ ← Ota.initialise f
  pure .nothing

def stageTask (f : Fs) (c : Ota.Control) (slot : Fin 2) (version : UInt64) (healthy : Bool) :
    Blk Reply := do
  let _ ← Ota.stage f c slot version healthy
  pure .nothing

def controlTask (f : Fs) (c : Ota.Control) : Blk Reply := do
  let _ ← Ota.writeControl f c
  pure .nothing

def spillTask (job : Kv.Job) (page : Mm.Page) : Blk Reply := do
  let ok ← Kv.writeOut page job.sector
  pure (.spilled job ok)

namespace Session

/-- After `mount` and `kv::init`. -/
def booted (f : Fs) : Session where
  home := f
  mounts := [f]
  log := .off
  cache := .init f.spillStart.toNat f.spillSectors.toNat
  spills := []
  flights := []
  written := []

/-- The call that a request is for, and whose it is. -/
def task (s : Session) : Request → Option (Writer × Blk Reply)
  | .write i c => (s.mounts[i]?).map fun f => (.fs, fsTask f c)
  | .writePhase phase => some (.fs, phaseTask phase)
  | .append e => some (.audit, appendTask s.log e)
  | .initialise i => (s.mounts[i]?).map fun f => (.update, initialiseTask f)
  | .stage i c slot version healthy =>
    (s.mounts[i]?).map fun f => (.update, stageTask f c slot version healthy)
  | .writeControl i c => (s.mounts[i]?).map fun f => (.update, controlTask f c)

/-- A call starts on the device `d`: the sectors that it will have landed there. -/
def launch (s : Session) (who : Writer) (m : Blk Reply) (d : Device) : Session :=
  let (exit, d') := m d
  { s with flights := s.flights ++ [⟨who, d'.trace, exit⟩] }

/-- What a call that returned leaves behind. -/
def receive (s : Session) (now : ℕ) : Reply → Session
  | .nothing => s
  | .fs f => { s with mounts := s.mounts ++ [f] }
  | .log log => { s with log := { s.log with nextSeq := log.nextSeq, lastHash := log.lastHash } }
  | .spilled job ok => { s with cache := s.cache.settle job ok now }

end Session

namespace Machine

/-- The disk with the given fates for the calls to come. -/
def device (k : Machine) (writes : List WriteFate) (reads : List ReadFate) : Device :=
  { capacity := k.capacity, disk := k.disk, writes := writes, reads := reads }

def step (k : Machine) : Act → Option Machine
  | .boot reads =>
    match Jlfs.mount (k.device [] reads) with
    | (.ok f, _) => some { k with session := some (.booted f) }
    | _ => some { k with session := none }
  | .mount reads => k.session.map fun s =>
    match Jlfs.mount (k.device [] reads) with
    | (.ok f, _) => { k with session := some { s with mounts := s.mounts ++ [f] } }
    | _ => k
  | .auditInit i reads => k.session.bind fun s => (s.mounts[i]?).map fun f =>
    match Audit.init f.auditStart f.auditSectors (k.device [] reads) with
    | (.ok log, _) => { k with session := some { s with log := log } }
    | (.err _, _) => k
    | (.halted _, _) => { k with session := none }
  | .start q writes reads => k.session.bind fun s => (s.task q).map fun (who, m) =>
    { k with session := some (s.launch who m (k.device writes reads)) }
  | .spill want now page writes => k.session.bind fun s =>
    (s.cache.choose want now).map fun (job, c) =>
      let s' := { s with cache := c, spills := job :: s.spills }
      let s' := s'.launch (.kv job) (spillTask job page) (k.device writes [])
      { k with session := some s' }
  | .cache op => k.session.map fun s =>
    { k with session := some { s with cache := op.run s.cache } }
  | .land i => k.session.bind fun s => (s.flights[i]?).bind fun g =>
    match g.pending with
    | [] => none
    | (x, v) :: rest => some { k with
        disk := Function.update k.disk x v
        session := some { s with
          flights := s.flights.set i { g with pending := rest }
          written := (g.who, x) :: s.written } }
  | .reply i now => k.session.bind fun s => (s.flights[i]?).bind fun g =>
    if g.pending = [] then
      let s' := { s with flights := s.flights.eraseIdx i }
      match g.exit with
      | .ok r => some { k with session := some (s'.receive now r) }
      | .err _ => some { k with session := some s' }
      | .halted _ => some { k with session := none }
    else none

/-- A disk all of which `format` just laid out. -/
def Fresh (k : Machine) : Prop :=
  (∃ total d d', format total d = (.ok (), d') ∧ d.capacity = total.toNat ∧
    k.capacity = d'.capacity ∧ k.disk = d'.disk) ∧ k.session = none

end Machine

/-! ## The regions of a formatted disk -/

/-- `sb` is the superblock that `format` wrote on a disk of `capacity` sectors. -/
def Laid (capacity : ℕ) (sb : Sector) : Prop :=
  ∃ total len spill audit ota, sb = superblock total len spill audit ota ∧
    Geometry total spill audit ota ∧ total.toNat = capacity

/-- `f` was mounted from the superblock `sb`, with a log that starts where it should. -/
structure Mounted (sb : Sector) (f : Fs) : Prop where
  adopt : f = adopt sb f.slot f.cp
  wf : f.cp.WF
  head : LOG_START.toNat ≤ f.cp.logHead.toNat

/-- The regions follow each other, from the log up to the end of the disk. -/
structure Bounds (capacity : ℕ) (f : Fs) : Prop where
  limit : f.logLimit = f.otaStart
  low : 8 ≤ f.otaStart.toNat
  update : f.otaStart.toNat + 129 = f.auditStart.toNat
  audit : f.auditStart.toNat + 2048 = f.spillStart.toNat
  spill : f.spillStart.toNat + 16384 = capacity
  otaSectors : f.otaSectors.toNat = 129
  auditSectors : f.auditSectors.toNat = 2048
  spillSectors : f.spillSectors.toNat = 16384

section Geometry

variable {capacity : ℕ} {sb : Sector} {f g : Fs}

theorem Mounted.bounds (h : Mounted sb f) (hl : Laid capacity sb) : Bounds capacity f := by
  obtain ⟨total, len, spill, audit, ota, rfl, hgeo, hcap⟩ := hl
  have hadopt := h.adopt
  have hlimit := hgeo.logLimit (l := len) f.slot f.cp
  rw [adopt_superblock] at hadopt
  obtain ⟨h1, h2, h3, h4⟩ := hgeo
  have e1 : SPILL_SECTORS.toNat = 16384 := rfl
  have e2 : AUDIT_SECTORS.toNat = 2048 := rfl
  have e3 : OTA_SECTORS.toNat = 129 := rfl
  have e4 : LOG_START.toNat = 8 := rfl
  rw [← h.adopt] at hlimit
  rw [hadopt] at hlimit ⊢
  constructor
  · exact hlimit
  all_goals
    dsimp only
    omega

/-- Every `Fs` value knows the same regions. -/
theorem Mounted.sectors_eq (hf : Mounted sb f) (hg : Mounted sb g) (hl : Laid capacity sb)
    (r : Region) : r.sectors f = r.sectors g := by
  have hfields : f.otaStart = g.otaStart ∧ f.auditStart = g.auditStart ∧
      f.spillStart = g.spillStart := by
    rw [hf.adopt, hg.adopt]
    exact ⟨rfl, rfl, rfl⟩
  obtain ⟨hota, haudit, hspill⟩ := hfields
  have hbf := hf.bounds hl
  have hbg := hg.bounds hl
  unfold Region.sectors
  cases r with
  | metadata => rfl
  | log => simp [Region.first, Region.past, hbf.limit, hbg.limit, hota]
  | update => simp [Region.first, Region.past, hbf.otaSectors, hbg.otaSectors, hota]
  | audit => simp [Region.first, Region.past, hbf.auditSectors, hbg.auditSectors, haudit]
  | spill => simp [Region.first, Region.past, hbf.spillSectors, hbg.spillSectors, hspill]

theorem Region.mem_sectors {r : Region} {x : ℕ} :
    x ∈ r.sectors f ↔ r.first f ≤ x ∧ x < r.past f := Iff.rfl

/-- No sector is in two regions. -/
theorem regions_disjoint (h : Bounds capacity f) {r r' : Region} (hne : r ≠ r') :
    Disjoint (r.sectors f) (r'.sectors f) := by
  obtain ⟨h1, h2, h3, h4, h5, h6, h7, h8⟩ := h
  have hlog : LOG_START.toNat = 8 := rfl
  apply Set.disjoint_left.mpr
  intro x hx hx'
  rw [Region.mem_sectors] at hx hx'
  apply hne
  cases r <;> cases r' <;> simp only [Region.first, Region.past] at hx hx' <;>
    first
    | rfl
    | (rw [h1] at hx; omega)
    | (rw [h1] at hx'; omega)
    | omega

/-- Every region is within the disk. -/
theorem region_fits (h : Bounds capacity f) (r : Region) {x : ℕ} (hx : x ∈ r.sectors f) :
    x < capacity := by
  obtain ⟨h1, h2, h3, h4, h5, h6, h7, h8⟩ := h
  have hlog : LOG_START.toNat = 8 := rfl
  rw [Region.mem_sectors] at hx
  cases r <;> simp only [Region.first, Region.past] at hx <;>
    first
    | (rw [h1] at hx; omega)
    | omega

end Geometry

/-! ## Where each call writes -/

/-- `w` may put `v` into sector `x`: into its own region, and into the two checkpoint
sectors only checkpoints with a log head past the metadata. -/
def Fits (f : Fs) : Writer → ℕ → Sector → Prop
  | .fs, x, v => x ∈ Region.log.sectors f ∨ x = TEST_STATE_SECTOR ∨
      ∃ (slot : Fin 2) (cp : Checkpoint), x = CP_SECTORS slot ∧ v = cp.encode ∧ cp.WF ∧
        LOG_START.toNat ≤ cp.logHead.toNat
  | .audit, x, _ => x ∈ Region.audit.sectors f
  | .update, x, _ => x ∈ Region.update.sectors f
  | .kv job, x, _ => x ∈ Region.spill.sectors f ∧ x ∈ spillSectors job

/-- A checkpoint that `mount` reads from `v` has a log head past the metadata. -/
def HeadOk (v : Sector) : Prop :=
  ∀ cp, Checkpoint.decode v = some cp → LOG_START.toNat ≤ cp.logHead.toNat

section Fits

variable {capacity : ℕ} {f : Fs} {w : Writer} {x : ℕ} {v : Sector}

/-- What a writer may write is in one of its regions. -/
theorem Fits.region (h : Fits f w x v) : ∃ r ∈ w.regions, x ∈ r.sectors f := by
  have hlog : LOG_START.toNat = 8 := rfl
  cases w with
  | fs =>
    rcases h with h | h | ⟨slot, cp, h, -⟩
    · exact ⟨.log, by simp [Writer.regions], h⟩
    · refine ⟨.metadata, by simp [Writer.regions], Nat.zero_le _, ?_⟩
      show x < LOG_START.toNat
      rw [h, hlog]
      decide
    · refine ⟨.metadata, by simp [Writer.regions], Nat.zero_le _, ?_⟩
      show x < LOG_START.toNat
      rcases cpSector_cases slot with hs | hs <;> omega
  | audit => exact ⟨.audit, by simp [Writer.regions], h⟩
  | update => exact ⟨.update, by simp [Writer.regions], h⟩
  | kv job => exact ⟨.spill, by simp [Writer.regions], h.1⟩

/-- What a writer may write leaves the superblock alone, and every checkpoint with a log
head past the metadata. -/
theorem Fits.metadata (h : Fits f w x v) (hb : Bounds capacity f) :
    x ≠ SB_SECTOR ∧ ∀ slot, x = CP_SECTORS slot → HeadOk v := by
  have hhigh : ∀ r : Region, r ≠ .metadata → x ∈ r.sectors f → 8 ≤ x := by
    intro r hr hx
    by_contra hlt
    exact Set.disjoint_left.mp (regions_disjoint hb hr) hx ⟨Nat.zero_le _, Nat.lt_of_not_le hlt⟩
  have hcp : ∀ slot, CP_SECTORS slot < 3 := fun slot => by
    rcases cpSector_cases slot with hs | hs <;> omega
  -- only the filesystem comes near the checkpoints
  have hfar : 8 ≤ x → x ≠ SB_SECTOR ∧ ∀ slot, x = CP_SECTORS slot → HeadOk v := by
    intro hx
    refine ⟨fun h0 => by rw [h0] at hx; exact absurd hx (by decide), fun slot hslot => ?_⟩
    have := hcp slot
    omega
  cases w with
  | fs =>
    rcases h with h | rfl | ⟨slot, cp, rfl, rfl, hwf, hhead⟩
    · exact hfar (hhigh .log (by simp) h)
    · refine ⟨by decide, fun slot hslot => ?_⟩
      have h4 : TEST_STATE_SECTOR = 4 := rfl
      have := hcp slot
      omega
    · refine ⟨?_, fun slot' _ cp' hdec => ?_⟩
      · rcases cpSector_cases slot with hs | hs <;> rw [hs] <;> decide
      · rw [Checkpoint.decode_encode hwf] at hdec
        cases hdec
        exact hhead
  | audit => exact hfar (hhigh .audit (by simp) h)
  | update => exact hfar (hhigh .update (by simp) h)
  | kv job => exact hfar (hhigh .spill (by simp) h.1)

end Fits

section Tasks

variable {capacity : ℕ} {sb : Sector} {f : Fs} {d d' : Device}

/-- Before its checkpoint a call writes to the log. -/
theorem Stores.mem_log {c : Call} {x : ℕ} {v : Sector} (hm : Mounted sb f)
    (h : c.Stores f x v) : x ∈ Region.log.sectors f := by
  refine ⟨hm.head.trans h.head_le, ?_⟩
  show x < f.logLimit.toNat
  cases c with
  | write name data crashAfter =>
    obtain ⟨⟨-, hlimit⟩, k, hk, rfl, -⟩ := h
    omega
  | setEntry name entry => exact h.elim

/-- The root that a call is about to write can be mounted. -/
theorem stage_mounted {c : Call} {next : Checkpoint} (hm : Mounted sb f)
    (h : c.stage f d = (.ok (some next), d')) :
    next.WF ∧ LOG_START.toNat ≤ next.logHead.toNat := by
  obtain ⟨hnext, hhead⟩ := Call.stage_ok hm.wf h
  have := hm.head
  exact ⟨hnext.wf, by omega⟩

/-- The filesystem writes to the log, and checkpoints. -/
theorem touches_call (hm : Mounted sb f) (c : Call) : Touches (Fits f .fs) (c.run f) := by
  rw [c.run_eq]
  apply Touches.bind_ok ((Call.touches_stage c f).mono fun x v h => .inl (Stores.mem_log hm h))
  intro d next d' hst
  cases next with
  | none => exact .pure _
  | some next =>
    obtain ⟨hwf, hhead⟩ := stage_mounted hm hst
    apply Touches.bind
    · exact touches_writeSector (.inr (.inr ⟨1 - f.slot, next, rfl, rfl, hwf, hhead⟩))
    · exact fun _ => .pure _

/-- What a call leaves is an `Fs` value like the one it was given. -/
theorem call_ok {c : Call} {f' : Fs} (hm : Mounted sb f) (h : c.run f d = (.ok f', d')) :
    Mounted sb f' := by
  rw [c.run_eq] at h
  obtain ⟨next, d1, hst, h⟩ := bind_eq_ok h
  cases next with
  | none =>
    obtain ⟨rfl, -⟩ := pure_eq_ok h
    exact hm
  | some next =>
    obtain ⟨hwf, hhead⟩ := stage_mounted hm hst
    obtain ⟨u, d2, -, hpure⟩ := bind_eq_ok h
    obtain ⟨rfl, -⟩ := pure_eq_ok hpure
    refine ⟨?_, hwf, hhead⟩
    calc { f with cp := next, slot := 1 - f.slot }
        = { adopt sb f.slot f.cp with cp := next, slot := 1 - f.slot } := by rw [← hm.adopt]
      _ = adopt sb (1 - f.slot) next := rfl

/-- `append` writes one sector of the audit region. -/
theorem touches_append (log : Audit.Log) (e : Audit.Entry) :
    Touches (fun x _ => log.start.toNat ≤ x ∧ x < log.start.toNat + log.sectors.toNat)
      (Audit.append log e) := by
  unfold Audit.append
  split_ifs
  · exact .fail _
  apply Touches.bind_ok (quiet_mulU64 _ _).touches
  intro d capacity d' hcap
  obtain ⟨hcap, -⟩ := mulU64_ok hcap
  split_ifs with hfull
  · exact .fail _
  have hlt : log.nextSeq.toNat < capacity.toNat :=
    UInt64.lt_iff_toNat_lt.mp (UInt64.not_le.mp hfull)
  have hper : Audit.RECORDS_PER_SECTOR.toNat = 4 := rfl
  refine .addU64_bind fun sector hsector => .bind (quiet_readSector _).touches fun buf => ?_
  rw [UInt64.toNat_div, hper] at hsector
  rw [hper] at hcap
  apply Touches.bind
  · apply touches_writeSector
    constructor
    · omega
    · omega
  · exact fun _ => .addU64_bind fun _ _ => .pure _

/-- A slot of the update region. -/
theorem touches_writeImage (f : Fs) (slot : Fin 2) (img : Ota.ImageBytes) :
    Touches (fun x _ => f.otaStart.toNat ≤ x ∧ x < f.otaStart.toNat + 129)
      (Ota.writeImage f slot img) := by
  have hone : (1 : UInt64).toNat = 1 := rfl
  have hslots := Ota.toNat_slotOffset slot
  have hval : slot.val < 2 := slot.isLt
  unfold Ota.writeImage Ota.slotSector
  rw [bind_assoc]
  refine .addU64_bind fun first hfirst => .addU64_bind fun base hbase => .forRange fun s hs => ?_
  have hs8 : s < 8 := hs
  have hmod : (UInt64.ofNat s).toNat = s := by
    rw [UInt64.toNat_ofNat', Nat.mod_eq_of_lt (by omega)]
  refine .addU64_bind fun pos hpos => touches_writeSector ?_
  rw [hmod] at hpos
  constructor <;> omega

theorem touches_writeControl (f : Fs) (c : Ota.Control) :
    Touches (fun x _ => f.otaStart.toNat ≤ x ∧ x < f.otaStart.toNat + 129)
      (Ota.writeControl f c) := by
  refine .addU64_bind fun _ _ => .bind (.attempt (touches_writeSector ?_)) fun _ => .pure _
  constructor <;> omega

theorem touches_stage (f : Fs) (c : Ota.Control) (slot : Fin 2) (version : UInt64)
    (healthy : Bool) : Touches (fun x _ => f.otaStart.toNat ≤ x ∧ x < f.otaStart.toNat + 129)
      (Ota.stage f c slot version healthy) := by
  apply Touches.bind (.attempt (touches_writeImage f slot _))
  intro r
  cases r with
  | error e => exact .pure _
  | ok u => exact touches_writeControl f _

theorem touches_initialise (f : Fs) :
    Touches (fun x _ => f.otaStart.toNat ≤ x ∧ x < f.otaStart.toNat + 129) (Ota.initialise f) := by
  apply Touches.bind (touches_writeImage f 0 _)
  intro u
  apply Touches.bind (touches_writeControl f _)
  rintro ⟨r, c⟩
  cases r with
  | error e => exact .fail _
  | ok u => exact .pure _

/-- A spill writes the sectors that were taken for it. -/
theorem touches_writeOut (page : Mm.Page) (job : Kv.Job) :
    Touches (fun x _ => x ∈ spillSectors job) (Kv.writeOut page job.sector) := by
  apply Touches.bind
  · refine .attempt (.forRange fun n hn => touches_writeSector ?_)
    exact ⟨Nat.le_add_right _ _, Nat.add_lt_add_left hn _⟩
  · intro r
    cases r with
    | error e => exact .pure _
    | ok u => exact .pure _

end Tasks

/-! ## What the kernel relies on -/

/-- A call in flight writes where its writer may, and returns an `Fs` that can be used. -/
structure Flight.Sound (sb : Sector) (home : Fs) (spills : List Kv.Job) (g : Flight) : Prop where
  pending : ∀ p ∈ g.pending, Fits home g.who p.1 p.2
  job : ∀ job, g.who = .kv job → job ∈ spills
  reply : ∀ f, g.exit = .ok (.fs f) → Mounted sb f

/-- A sector that landed is where its writer may write. -/
structure Placed (home : Fs) (spills : List Kv.Job) (w : Writer) (x : ℕ) : Prop where
  region : ∃ r ∈ w.regions, x ∈ r.sectors home
  job : ∀ job, w = .kv job → job ∈ spills ∧ x ∈ spillSectors job

/-- What the kernel in memory keeps: every `Fs` is one of this disk, the log and the cache
know their regions, and the spills so far are next to each other in the part of the spill
region below `spill_next`. -/
structure Session.Sound (sb : Sector) (s : Session) : Prop where
  home : Mounted sb s.home
  mounts : ∀ f ∈ s.mounts, Mounted sb f
  log : s.log.ready = true →
    s.log.start = s.home.auditStart ∧ s.log.sectors = s.home.auditSectors
  spillEnd : s.cache.spillEnd = s.home.spillStart.toNat + s.home.spillSectors.toNat
  spillNext : s.cache.spillNext ≤ s.cache.spillEnd
  taken : ∀ job ∈ s.spills, s.home.spillStart.toNat ≤ job.sector ∧
    job.sector + Kv.SECTORS_PER_BLOCK ≤ s.cache.spillNext
  spillStart : s.home.spillStart.toNat ≤ s.cache.spillNext
  apart : s.spills.Pairwise fun a b => b.sector + Kv.SECTORS_PER_BLOCK ≤ a.sector
  flights : ∀ g ∈ s.flights, g.Sound sb s.home s.spills
  written : ∀ p ∈ s.written, Placed s.home s.spills p.1 p.2

/-- The invariant of the machine. -/
structure Machine.Sound (sb : Sector) (k : Machine) : Prop where
  laid : Laid k.capacity sb
  superblock : k.disk SB_SECTOR = sb
  slots : ∀ slot, HeadOk (k.disk (CP_SECTORS slot))
  session : ∀ s, k.session = some s → s.Sound sb

section Sound

variable {sb : Sector} {s : Session} {k : Machine}

theorem CacheOp.run_spill (c : Kv.Cache) (op : CacheOp) :
    (op.run c).spillNext = c.spillNext ∧ (op.run c).spillEnd = c.spillEnd := by
  cases op with
  | openSession owner model now => exact ⟨rfl, rfl⟩
  | push id frame now =>
    dsimp only [CacheOp.run]
    cases hpush : c.push id frame now with
    | error e => exact ⟨rfl, rfl⟩
    | ok c' =>
      unfold Kv.Cache.push at hpush
      split_ifs at hpush
      split at hpush
      · cases hpush
      · split at hpush <;> cases hpush
        exact ⟨rfl, rfl⟩
  | look id index now =>
    dsimp only [CacheOp.run]
    unfold Kv.Cache.look
    split <;> exact ⟨rfl, rfl⟩
  | hit id index frame now => exact ⟨rfl, rfl⟩
  | publish id index frame now => exact ⟨rfl, rfl⟩

theorem settle_spill (c : Kv.Cache) (job : Kv.Job) (ok : Bool) (now : ℕ) :
    (c.settle job ok now).spillNext = c.spillNext ∧ (c.settle job ok now).spillEnd = c.spillEnd := by
  unfold Kv.Cache.settle
  split_ifs <;> exact ⟨rfl, rfl⟩

/-- The sectors of a spill are the next ones of the spill region. -/
theorem choose_spill {c c' : Kv.Cache} {want now : ℕ} {job : Kv.Job}
    (h : c.choose want now = some (job, c')) : job.sector = c.spillNext ∧
      c'.spillNext = c.spillNext + Kv.SECTORS_PER_BLOCK ∧ c'.spillEnd = c.spillEnd ∧
      c'.spillNext ≤ c'.spillEnd := by
  unfold Kv.Cache.choose at h
  split at h
  · cases h
  · split at h
    · cases h
    · split at h
      · cases h
      · cases h
        exact ⟨rfl, rfl, rfl, by dsimp only [Kv.Cache.modify]; omega⟩

/-- What `mount` returns on this disk. -/
theorem Machine.Sound.mount (h : k.Sound sb) {reads : List ReadFate} {f : Fs} {d : Device}
    (hm : Jlfs.mount (k.device [] reads) = (.ok f, d)) : Mounted sb f := by
  obtain ⟨slot, cp, hf, hdec⟩ := mount_eq_ok hm
  have hsb : (k.device [] reads).disk SB_SECTOR = sb := h.superblock
  rw [hsb] at hf
  subst hf
  exact ⟨rfl, Checkpoint.decode_wf hdec, h.slots slot cp hdec⟩

/-- Where each call writes, and what it returns. -/
theorem touches_task (h : s.Sound sb) {capacity : ℕ} (hl : Laid capacity sb) {q : Request}
    {who : Writer} {m : Blk Reply} (hq : s.task q = some (who, m)) :
    Touches (Fits s.home who) m ∧ (∀ job, who ≠ .kv job) ∧
      ∀ d f d', m d = (.ok (.fs f), d') → Mounted sb f := by
  -- an `Fs` that a caller holds knows the regions of `home`
  have hget : ∀ {i : ℕ} {f : Fs}, s.mounts[i]? = some f → Mounted sb f := fun hi =>
    h.mounts _ (List.mem_of_getElem? hi)
  have hupdate : ∀ {f : Fs}, Mounted sb f → ∀ x (v : Sector),
      f.otaStart.toNat ≤ x ∧ x < f.otaStart.toNat + 129 → Fits s.home .update x v := by
    intro f hf x v hx
    show x ∈ Region.update.sectors s.home
    rw [h.home.sectors_eq hf hl, Region.mem_sectors, Region.past, (hf.bounds hl).otaSectors]
    exact hx
  -- only a call of the filesystem returns an `Fs`
  have hquiet : ∀ {α : Type} (m : Blk α) (r : α → Reply), (∀ a f, r a ≠ .fs f) →
      ∀ d f d', (do let a ← m; pure (r a) : Blk Reply) d = (.ok (.fs f), d') → Mounted sb f := by
    intro α m r hr d f d' hd
    obtain ⟨a, d1, -, hpure⟩ := bind_eq_ok hd
    exact absurd (pure_eq_ok hpure).1.symm (hr a f)
  cases q with
  | write i c =>
    obtain ⟨f, hi, hf⟩ := Option.map_eq_some_iff.mp hq
    obtain ⟨rfl, rfl⟩ := Prod.mk.inj hf
    have hm := hget hi
    refine ⟨?_, nofun, fun d f' d' hd => ?_⟩
    · have hlog := h.home.sectors_eq hm hl .log
      refine (Touches.bind (touches_call hm c) fun _ => .pure _).mono fun x v hx => ?_
      unfold Fits at hx ⊢
      rwa [hlog]
    · obtain ⟨f1, d1, hrun, hpure⟩ := bind_eq_ok hd
      obtain rfl := Reply.fs.inj (pure_eq_ok hpure).1
      exact call_ok hm hrun
  | writePhase phase =>
    obtain ⟨rfl, rfl⟩ := Prod.mk.inj (Option.some.inj hq)
    refine ⟨?_, nofun, hquiet _ (fun _ => .nothing) nofun⟩
    exact .bind (touches_writeSector (.inr (.inl rfl))) fun _ => .pure _
  | append e =>
    obtain ⟨rfl, rfl⟩ := Prod.mk.inj (Option.some.inj hq)
    refine ⟨?_, nofun, hquiet _ (fun r : UInt64 × Audit.Log => .log r.2) nofun⟩
    by_cases hready : s.log.ready = true
    · obtain ⟨hstart, hsectors⟩ := h.log hready
      refine (Touches.bind (touches_append s.log e) fun _ => .pure _).mono fun x v hx => ?_
      rw [hstart, hsectors] at hx
      exact hx
    · unfold appendTask Audit.append
      rw [if_pos (by simpa using hready)]
      exact .bind (.fail _) fun _ => .pure _
  | initialise i =>
    obtain ⟨f, hi, hf⟩ := Option.map_eq_some_iff.mp hq
    obtain ⟨rfl, rfl⟩ := Prod.mk.inj hf
    refine ⟨?_, nofun, hquiet _ (fun _ => .nothing) nofun⟩
    exact (Touches.bind (touches_initialise f) fun _ => .pure _).mono (hupdate (hget hi))
  | stage i c slot version healthy =>
    obtain ⟨f, hi, hf⟩ := Option.map_eq_some_iff.mp hq
    obtain ⟨rfl, rfl⟩ := Prod.mk.inj hf
    refine ⟨?_, nofun, hquiet _ (fun _ => .nothing) nofun⟩
    exact (Touches.bind (touches_stage f c slot version healthy) fun _ => .pure _).mono
      (hupdate (hget hi))
  | writeControl i c =>
    obtain ⟨f, hi, hf⟩ := Option.map_eq_some_iff.mp hq
    obtain ⟨rfl, rfl⟩ := Prod.mk.inj hf
    refine ⟨?_, nofun, hquiet _ (fun _ => .nothing) nofun⟩
    exact (Touches.bind (touches_writeControl f c) fun _ => .pure _).mono (hupdate (hget hi))

/-- A call starts: what it will have landed fits its writer. -/
theorem Session.Sound.launch (h : s.Sound sb) {who : Writer} {m : Blk Reply} {d : Device}
    (hd : d.trace = []) (hm : Touches (Fits s.home who) m)
    (hjob : ∀ job, who = .kv job → job ∈ s.spills)
    (hreply : ∀ d f d', m d = (.ok (.fs f), d') → Mounted sb f) : (s.launch who m d).Sound sb := by
  have hnew : Flight.Sound sb s.home s.spills ⟨who, (m d).2.trace, (m d).1⟩ := by
    refine ⟨fun p hp => ?_, hjob, fun f hf => hreply d f (m d).2 (Prod.ext hf rfl)⟩
    rcases (hm d).trace p hp with hold | hfits
    · rw [hd] at hold
      cases hold
    · exact hfits
  refine { h with flights := fun g hg => ?_ }
  rcases List.mem_append.mp hg with hg | hg
  · exact h.flights g hg
  · rw [List.mem_singleton.mp hg]
    exact hnew

/-- A call returns. -/
theorem Session.Sound.receive (h : s.Sound sb) {r : Reply} (now : ℕ)
    (hr : ∀ f, r = .fs f → Mounted sb f) : (s.receive now r).Sound sb := by
  cases r with
  | nothing => exact h
  | fs f =>
    refine { h with mounts := fun g hg => ?_ }
    rcases List.mem_append.mp hg with hg | hg
    · exact h.mounts g hg
    · rw [List.mem_singleton.mp hg]
      exact hr f rfl
  | log log => exact { h with log := h.log }
  | spilled job ok =>
    obtain ⟨hnext, hend⟩ := settle_spill s.cache job ok now
    exact { h with
      spillEnd := hend.trans h.spillEnd
      spillNext := by
        show (s.cache.settle job ok now).spillNext ≤ (s.cache.settle job ok now).spillEnd
        rw [hnext, hend]
        exact h.spillNext
      taken := fun job' hjob' => ⟨(h.taken job' hjob').1, hnext ▸ (h.taken job' hjob').2⟩
      spillStart := hnext ▸ h.spillStart }

/-- A spill is decided on: its sectors come after those of every spill before it. -/
theorem Session.Sound.choose (h : s.Sound sb) {want now : ℕ} {job : Kv.Job} {c : Kv.Cache}
    (hc : s.cache.choose want now = some (job, c)) :
    ({ s with cache := c, spills := job :: s.spills } : Session).Sound sb := by
  obtain ⟨hsector, hnext, hend, hroom⟩ := choose_spill hc
  constructor
  · exact h.home
  · exact h.mounts
  · exact h.log
  · exact hend.trans h.spillEnd
  · exact hroom
  · intro job' hjob'
    rcases List.mem_cons.mp hjob' with rfl | hjob'
    · exact ⟨hsector ▸ h.spillStart, by dsimp only; omega⟩
    · have := h.taken job' hjob'
      exact ⟨this.1, by dsimp only; omega⟩
  · have := h.spillStart
    dsimp only
    omega
  · refine List.pairwise_cons.mpr ⟨fun job' hjob' => ?_, h.apart⟩
    rw [hsector]
    exact (h.taken job' hjob').2
  · intro g hg
    exact ⟨(h.flights g hg).pending, fun job' hjob' =>
      List.mem_cons_of_mem _ ((h.flights g hg).job job' hjob'), (h.flights g hg).reply⟩
  · intro p hp
    obtain ⟨hregion, hjob⟩ := h.written p hp
    exact ⟨hregion, fun job' hjob' =>
      ⟨List.mem_cons_of_mem _ (hjob job' hjob').1, (hjob job' hjob').2⟩⟩

theorem sound_booted {f : Fs} (hm : Mounted sb f) : (Session.booted f).Sound sb := by
  constructor
  · exact hm
  · intro g hg
    rw [List.mem_singleton.mp hg]
    exact hm
  · intro hready
    cases hready
  · rfl
  · exact Nat.le_add_right _ _
  · exact fun _ h => absurd h List.not_mem_nil
  · exact le_rfl
  · exact List.Pairwise.nil
  · exact fun _ h => absurd h List.not_mem_nil
  · exact fun _ h => absurd h List.not_mem_nil

/-- A sector lands. -/
theorem Machine.Sound.land (h : k.Sound sb) (hs : k.session = some s) {i : ℕ} {g : Flight}
    (hg : s.flights[i]? = some g) {x : ℕ} {v : Sector} {rest : List (ℕ × Sector)}
    (hp : g.pending = (x, v) :: rest) :
    ({ k with
        disk := Function.update k.disk x v
        session := some { s with
          flights := s.flights.set i { g with pending := rest }
          written := (g.who, x) :: s.written } } : Machine).Sound sb := by
  have hsound := h.session s hs
  have hflight := hsound.flights g (List.mem_of_getElem? hg)
  have hfits : Fits s.home g.who x v := hflight.pending (x, v) (by rw [hp]; exact List.mem_cons_self)
  obtain ⟨hsb, hslots⟩ := hfits.metadata (hsound.home.bounds h.laid)
  refine ⟨h.laid, ?_, fun slot => ?_, fun s' hs' => ?_⟩
  · show Function.update k.disk x v SB_SECTOR = sb
    rw [Function.update_of_ne hsb.symm]
    exact h.superblock
  · show HeadOk (Function.update k.disk x v (CP_SECTORS slot))
    by_cases hx : x = CP_SECTORS slot
    · rw [← hx, Function.update_self]
      exact hslots slot hx
    · rw [Function.update_of_ne (Ne.symm hx)]
      exact h.slots slot
  · cases hs'
    refine { hsound with flights := fun g' hg' => ?_, written := fun p hp' => ?_ }
    · rcases List.mem_or_eq_of_mem_set hg' with hg' | rfl
      · exact hsound.flights g' hg'
      · exact ⟨fun p hp' => hflight.pending p (by rw [hp]; exact List.mem_cons_of_mem _ hp'),
          hflight.job, hflight.reply⟩
    · rcases List.mem_cons.mp hp' with rfl | hp'
      · refine ⟨hfits.region, fun job hjob => ⟨hflight.job job hjob, ?_⟩⟩
        dsimp only at hjob
        rw [hjob] at hfits
        exact hfits.2
      · exact hsound.written p hp'

end Sound

/-! ## Runs -/

section Runs

variable {sb : Sector} {k k' : Machine}

/-- The kernel goes on with what it has in memory changed. -/
theorem Machine.Sound.withSession (h : k.Sound sb) {o : Option Session}
    (ho : ∀ s, o = some s → s.Sound sb) : ({ k with session := o } : Machine).Sound sb :=
  ⟨h.laid, h.superblock, h.slots, ho⟩

/-- Every step keeps what the kernel relies on. -/
theorem sound_step {a : Act} (h : k.Sound sb) (hs : k.step a = some k') : k'.Sound sb := by
  cases a with
  | boot reads =>
    unfold Machine.step at hs
    dsimp only at hs
    split at hs
    · next f d hm =>
      cases hs
      refine h.withSession fun s hs' => ?_
      cases hs'
      exact sound_booted (h.mount hm)
    · cases hs
      exact h.withSession nofun
  | mount reads =>
    obtain ⟨s, hsess, hs⟩ := Option.map_eq_some_iff.mp hs
    have hsound := h.session s hsess
    split at hs
    · next f d hm =>
      subst hs
      refine h.withSession fun s' hs' => ?_
      cases hs'
      refine { hsound with mounts := fun g hg => ?_ }
      rcases List.mem_append.mp hg with hg | hg
      · exact hsound.mounts g hg
      · rw [List.mem_singleton.mp hg]
        exact h.mount hm
    · subst hs
      exact h
  | auditInit i reads =>
    obtain ⟨s, hsess, hs⟩ := Option.bind_eq_some_iff.mp hs
    obtain ⟨f, hf, hs⟩ := Option.map_eq_some_iff.mp hs
    have hsound := h.session s hsess
    have hm := hsound.mounts f (List.mem_of_getElem? hf)
    split at hs
    · next log d hinit =>
      subst hs
      refine h.withSession fun s' hs' => ?_
      cases hs'
      refine { hsound with log := fun _ => ?_ }
      -- the log is told where it lies by an `Fs` of the same disk
      obtain ⟨capacity, d1, -, hinit⟩ := bind_eq_ok hinit
      obtain ⟨tip, d2, -, hinit⟩ := bind_eq_ok hinit
      obtain ⟨rfl, -⟩ := pure_eq_ok hinit
      dsimp only
      rw [hm.adopt, hsound.home.adopt]
      exact ⟨rfl, rfl⟩
    · subst hs
      exact h
    · subst hs
      exact h.withSession nofun
  | start q writes reads =>
    obtain ⟨s, hsess, hs⟩ := Option.bind_eq_some_iff.mp hs
    obtain ⟨⟨who, m⟩, hq, rfl⟩ := Option.map_eq_some_iff.mp hs
    have hsound := h.session s hsess
    obtain ⟨htouch, hkv, hreply⟩ := touches_task hsound h.laid hq
    refine h.withSession fun s' hs' => ?_
    cases hs'
    exact hsound.launch rfl htouch (fun job hjob => absurd hjob (hkv job)) hreply
  | spill want now page writes =>
    obtain ⟨s, hsess, hs⟩ := Option.bind_eq_some_iff.mp hs
    obtain ⟨⟨job, c⟩, hc, rfl⟩ := Option.map_eq_some_iff.mp hs
    have hsound := h.session s hsess
    have hchosen := hsound.choose hc
    refine h.withSession fun s' hs' => ?_
    cases hs'
    refine hchosen.launch rfl ?_ ?_ ?_
    · refine (Touches.bind (touches_writeOut page job) fun _ => .pure _).mono fun x v hx => ?_
      have htaken := hchosen.taken job List.mem_cons_self
      have hend := hchosen.spillEnd
      have hroom := hchosen.spillNext
      dsimp only at htaken hend hroom
      refine ⟨⟨htaken.1.trans hx.1, ?_⟩, hx⟩
      have hpast := hx.2
      show x < s.home.spillStart.toNat + s.home.spillSectors.toNat
      omega
    · intro job' hjob'
      cases hjob'
      exact List.mem_cons_self
    · intro d f d' hd
      obtain ⟨ok, d1, -, hpure⟩ := bind_eq_ok hd
      cases (pure_eq_ok hpure).1
  | cache op =>
    obtain ⟨s, hsess, rfl⟩ := Option.map_eq_some_iff.mp hs
    have hsound := h.session s hsess
    obtain ⟨hnext, hend⟩ := op.run_spill s.cache
    refine h.withSession fun s' hs' => ?_
    cases hs'
    exact { hsound with
      spillEnd := hend.trans hsound.spillEnd
      spillNext := by
        show (op.run s.cache).spillNext ≤ (op.run s.cache).spillEnd
        rw [hnext, hend]
        exact hsound.spillNext
      taken := fun job hjob => ⟨(hsound.taken job hjob).1, hnext ▸ (hsound.taken job hjob).2⟩
      spillStart := hnext ▸ hsound.spillStart }
  | land i =>
    obtain ⟨s, hsess, hs⟩ := Option.bind_eq_some_iff.mp hs
    obtain ⟨g, hg, hs⟩ := Option.bind_eq_some_iff.mp hs
    split at hs
    · cases hs
    · next x v rest hp =>
      cases hs
      exact h.land hsess hg hp
  | reply i now =>
    obtain ⟨s, hsess, hs⟩ := Option.bind_eq_some_iff.mp hs
    obtain ⟨g, hg, hs⟩ := Option.bind_eq_some_iff.mp hs
    have hsound := h.session s hsess
    have hflight := hsound.flights g (List.mem_of_getElem? hg)
    have herase : ({ s with flights := s.flights.eraseIdx i } : Session).Sound sb :=
      { hsound with flights := fun g' hg' => hsound.flights g' (List.mem_of_mem_eraseIdx hg') }
    split_ifs at hs
    dsimp only at hs
    split at hs
    · next r hexit =>
      cases hs
      refine h.withSession fun s' hs' => ?_
      cases hs'
      exact herase.receive now fun f hf => hflight.reply f (by rw [hexit, hf])
    · cases hs
      refine h.withSession fun s' hs' => ?_
      cases hs'
      exact herase
    · cases hs
      exact h.withSession nofun

/-- A disk that `format` laid out. -/
theorem sound_fresh (h : k.Fresh) : ∃ sb, k.Sound sb := by
  obtain ⟨⟨total, d, d', hfmt, hcapacity, hcap, hdisk⟩, hsession⟩ := h
  obtain ⟨-, ⟨len, spill, audit, ota, hsb, hgeo, -⟩, hA, hB⟩ := format_ok hfmt
  obtain ⟨_, _, _, _, -, -, -, hsame, -⟩ := format_disk hfmt
  refine ⟨_, ⟨total, len, spill, audit, ota, rfl, hgeo, by omega⟩, hdisk ▸ hsb, fun slot => ?_, ?_⟩
  · rw [hdisk]
    intro cp hdec
    match slot with
    | 0 =>
      rw [hA, Checkpoint.decode_encode Checkpoint.wf_new] at hdec
      cases hdec
      exact le_rfl
    | 1 =>
      rw [hB, decode_blank] at hdec
      cases hdec
  · intro s hs
    rw [hsession] at hs
    cases hs

/-- On a disk that `format` laid out, every sector that lands after a boot is in a region
of its writer; the regions are apart and within the disk; no two spills share a sector, and
a spill keeps to its own. -/
theorem regions_kept {s : Session}
    (h : Run.Reachable Machine.step Run.always Machine.Fresh k) (hs : k.session = some s) :
    (∀ w x, (w, x) ∈ s.written → ∃ r ∈ w.regions, x ∈ r.sectors s.home) ∧
      (∀ r r' : Region, r ≠ r' → Disjoint (r.sectors s.home) (r'.sectors s.home)) ∧
      (∀ (r : Region) x, x ∈ r.sectors s.home → x < k.capacity) ∧
      s.spills.Pairwise (fun a b => Disjoint (spillSectors a) (spillSectors b)) ∧
      ∀ job x, (.kv job, x) ∈ s.written → job ∈ s.spills ∧ x ∈ spillSectors job := by
  obtain ⟨sb, hk⟩ := h.invariant (fun k => ∃ sb, k.Sound sb) (fun _ => sound_fresh)
    fun _ _ _ ⟨sb, hi⟩ _ hstep => ⟨sb, sound_step hi hstep⟩
  have hsound := hk.session s hs
  have hbounds := hsound.home.bounds hk.laid
  refine ⟨?_, ?_, ?_, ?_, ?_⟩
  · exact fun w x hw => (hsound.written _ hw).region
  · exact fun r r' hne => regions_disjoint hbounds hne
  · exact fun r x hx => region_fits hbounds r hx
  · refine hsound.apart.imp fun {a b} hab => Set.disjoint_left.mpr fun x hx hx' => ?_
    exact absurd (hx'.2.trans_le (hab.trans hx.1)) (lt_irrefl x)
  · exact fun job x hw => (hsound.written _ hw).job job rfl

end Runs

/-! ## A run with a spill -/

/-- A spill that nothing disturbs writes the whole block, sector by sector. -/
theorem writeOut_healthy (page : Mm.Page) (sector : ℕ) {d : Device} (hw : d.writes = [])
    (hcap : sector + Kv.SECTORS_PER_BLOCK ≤ d.capacity) :
    ∃ d', Kv.writeOut page sector d = (.ok true, d') ∧ d'.trace = d.trace ++
      (List.range Kv.SECTORS_PER_BLOCK).map fun n => (sector + n, Kv.sectorOf page n) := by
  let upTo (k : ℕ) (e : Device) : Prop := e.writes = [] ∧ e.capacity = d.capacity ∧
    e.trace = d.trace ++ (List.range k).map fun n => (sector + n, Kv.sectorOf page n)
  have hloop : ∃ d', forRange Kv.SECTORS_PER_BLOCK
      (fun n => writeSector (sector + n) (Kv.sectorOf page n)) d = (.ok (), d') ∧
      upTo Kv.SECTORS_PER_BLOCK d' := by
    apply forRange_progress (P := upTo) ⟨hw, rfl, by simp⟩
    rintro k e hk ⟨hwe, hce, hte⟩
    refine ⟨_, writeSector_of_healthy _ hwe (by omega), hwe, hce, ?_⟩
    rw [List.range_succ, List.map_append, ← List.append_assoc, ← hte]
    rfl
  obtain ⟨d', hrun, -, -, htrace⟩ := hloop
  exact ⟨d', by rw [Kv.writeOut, bind_of_ok (attempt_of_ok hrun)]; rfl, htrace⟩

section Spill

variable {k : Machine} {f : Fs}

/-- The cache after `kv::init`, with one session of one block. -/
def oneBlock (f : Fs) : Kv.Cache :=
  CacheOp.run (CacheOp.run (.init f.spillStart.toNat f.spillSectors.toNat) (.openSession 0 0 0))
    (.push 1 (some 0) 0)

/-- The spill of that block. -/
def firstJob (f : Fs) : Kv.Job := ⟨0, 0, 0, f.spillStart.toNat⟩

theorem choose_oneBlock (h : f.spillSectors.toNat = 16384) :
    ∃ c, (oneBlock f).choose 64 0 = some (firstJob f, c) := by
  have hroom : ¬(oneBlock f).spillEnd < (oneBlock f).spillNext + Kv.SECTORS_PER_BLOCK := by
    show ¬f.spillStart.toNat + f.spillSectors.toNat < f.spillStart.toNat + 8
    omega
  have hfull : ¬(oneBlock f).residentBlocks + 64 ≤ Kv.BUDGET_BLOCKS :=
    show ¬1 + 64 ≤ 64 by omega
  unfold Kv.Cache.choose
  rw [if_neg hfull, show (oneBlock f).victim 0 = some (0, 0, 0, 0) from rfl]
  dsimp only
  rw [if_neg hroom]
  exact ⟨_, rfl⟩

/-- After a boot a block can be spilled, and its first sector lands. -/
theorem spill_lands (page : Mm.Page) (h : k.Fresh) (hb : Bounds k.capacity f)
    (hm : mount (k.device [] []) = (.ok f, k.device [] [])) : ∃ k' s,
      Run.Reachable Machine.step Run.always Machine.Fresh k' ∧ k'.session = some s ∧
        s.home = f ∧ s.written = [(.kv (firstJob f), f.spillStart.toNat)] := by
  have hspill := hb.spill
  have hok : ∀ k a, Run.always (k : Machine) (a : Act) := fun _ _ => trivial
  obtain ⟨c, hc⟩ := choose_oneBlock hb.spillSectors
  -- the machine boots, and a session gets its block
  let s : Session := { Session.booted f with cache := oneBlock f }
  have hboot : k.step (.boot []) = some { k with session := some (.booted f) } := by
    simp only [Machine.step, hm]
  have hready : Run.Reachable Machine.step Run.always Machine.Fresh { k with session := some s } :=
    .next (.next (.next (.start h) (hok _ _) hboot) (hok _ (.cache _)) rfl)
      (hok _ (.cache (.push 1 (some 0) 0))) rfl
  -- `make_room` spills the block
  obtain ⟨d, hout, htrace⟩ := writeOut_healthy page (firstJob f).sector
    (d := k.device [] []) rfl
    (by show f.spillStart.toNat + 8 ≤ k.capacity; omega)
  have htask : spillTask (firstJob f) page (k.device [] []) =
      (.ok (.spilled (firstJob f) true), d) := by
    rw [spillTask, bind_of_ok hout]
    rfl
  let g : Flight := ⟨.kv (firstJob f), d.trace, .ok (.spilled (firstJob f) true)⟩
  let s' : Session := { s with cache := c, spills := [firstJob f], flights := [g] }
  have hspilling : Run.Reachable Machine.step Run.always Machine.Fresh
      { k with session := some s' } := by
    refine .next hready (hok _ (.spill 64 0 page [])) ?_
    show ((oneBlock f).choose 64 0).map _ = _
    rw [hc, Option.map_some]
    dsimp only [Session.launch]
    rw [show Machine.device { k with session := some s } [] [] = k.device [] [] from rfl, htask]
    rfl
  obtain ⟨v, rest, hfirst⟩ : ∃ v rest, d.trace = (f.spillStart.toNat, v) :: rest :=
    ⟨_, _, htrace⟩
  let s'' : Session := { s' with
    flights := [{ g with pending := rest }]
    written := [(.kv (firstJob f), f.spillStart.toNat)] }
  let k' : Machine := { k with
    disk := Function.update k.disk f.spillStart.toNat v
    session := some s'' }
  have hland : Run.Reachable Machine.step Run.always Machine.Fresh k' := by
    refine .next hspilling (hok _ (.land 0)) ?_
    show (match d.trace with | [] => none | (x, v) :: rest => _) = _
    rw [hfirst]
    rfl
  exact ⟨k', s'', hland, rfl, rfl, rfl⟩

end Spill

/-- A disk of 20000 sectors that `format` just laid out. -/
def smallMachine : Machine := ⟨smallDisk.capacity, smallDisk.disk, none⟩

theorem fresh_smallMachine : smallMachine.Fresh := by
  obtain ⟨d', hfmt, hcap, hdisk⟩ := format_smallDisk
  exact ⟨⟨20000, _, d', hfmt, rfl, capacity_smallDisk.trans hcap.symm, hdisk⟩, rfl⟩

/-- A block of a session on the small disk goes to the spill region. -/
theorem regions_kept_smallMachine : ∃ k s job x, (k : Machine).session = some s ∧
    s.written = [(.kv job, x)] ∧ (∃ r ∈ (Writer.kv job).regions, x ∈ r.sectors s.home) ∧
      job ∈ s.spills ∧ x ∈ spillSectors job := by
  obtain ⟨sb, hk⟩ := sound_fresh fresh_smallMachine
  have hm : mount (smallMachine.device [] []) =
      (.ok (adopt (smallDisk.disk SB_SECTOR) 0 Checkpoint.new), smallMachine.device [] []) :=
    (layout_fresh fresh_smallDisk : Layout False smallDisk 0 Checkpoint.new).mount_eq
  obtain ⟨k, s, hreach, hs, -, hwritten⟩ := spill_lands (Vector.replicate _ 0) fresh_smallMachine
    ((hk.mount hm).bounds hk.laid) hm
  obtain ⟨hregion, -, -, -, hjob⟩ := regions_kept hreach hs
  refine ⟨k, s, _, _, hs, hwritten, hregion _ _ ?_, hjob _ _ ?_⟩ <;>
  · rw [hwritten]
    exact List.mem_cons_self

end JungeyOs.Regions
