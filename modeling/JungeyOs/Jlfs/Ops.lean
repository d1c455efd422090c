import JungeyOs.Jlfs.Layout

/-!
# The operations of JLFS

Models of `kernel/src/fs.rs`, lines 202–507: `format`, `mount`, the `Fs` methods,
and the test-state sector. `Fs::write` and `Fs::set_entry` both end in the same two steps, the
checkpoint write and the switch of the live root (`Fs.commit`); what comes
before is `Fs.stageWrite` and `Fs.stageEntry`.

Results:
* `format_ok`: what is on a disk that `format` laid out.
* `mount_eq`: what `mount` makes of the superblock and the two slots.
* `stageWrite_ok`, `stageEntry_ok`: the next root an operation builds.
* `touches_stageWrite`: before its checkpoint a write changes only the log past
  its head.
-/

namespace JungeyOs.Jlfs

open JungeyOs.Bytes

/-- `Fs` (lines 202–217). -/
structure Fs where
  cp : Checkpoint
  spillStart : UInt64
  spillSectors : UInt64
  auditStart : UInt64
  auditSectors : UInt64
  otaStart : UInt64
  otaSectors : UInt64
  slot : Fin 2
  totalSectors : UInt64

/-! ## Format and mount -/

/-- The superblock that `format` lays down (lines 221–237). -/
def superblock (totalSectors logLen spillStart auditStart otaStart : UInt64) : Sector :=
  let sb := putU64 blankSector 0 SB_MAGIC
  let sb := putU32 sb 8 1
  let sb := putU64 sb 12 totalSectors
  let sb := putU64 sb 20 LOG_START
  let sb := putU64 sb 28 logLen
  let sb := putU64 sb 36 spillStart
  let sb := putU64 sb 44 SPILL_SECTORS
  let sb := putU64 sb 52 auditStart
  let sb := putU64 sb 60 AUDIT_SECTORS
  let sb := putU64 sb 68 otaStart
  let sb := putU64 sb 76 OTA_SECTORS
  sealSector sb

/-- `format` (lines 220–256). -/
def format (totalSectors : UInt64) : Blk Unit := do
  let spillStart ← Blk.subU64 totalSectors SPILL_SECTORS
  let auditStart ← Blk.subU64 spillStart AUDIT_SECTORS
  let otaStart ← Blk.subU64 auditStart OTA_SECTORS
  let logLen ← Blk.subU64 otaStart LOG_START
  Blk.writeSector SB_SECTOR (superblock totalSectors logLen spillStart auditStart otaStart)
  Blk.writeSector (CP_SECTORS 1) blankSector
  Blk.writeSector (CP_SECTORS 0) Checkpoint.new.encode
  Blk.writeSector auditStart.toNat blankSector
  Blk.writeSector otaStart.toNat blankSector

/-- The loop body of `mount` (lines 276–286): keep the newer of the checkpoints
that decode. -/
def newer (best : Option (Fin 2 × Checkpoint)) (slot : Fin 2) (raw : Sector) :
    Option (Fin 2 × Checkpoint) :=
  match Checkpoint.decode raw with
  | none => best
  | some cp => if best.all (fun b => decide (b.2.seq < cp.seq)) then some (slot, cp) else best

/-- The `Fs` value `mount` returns for a superblock and a root (lines 267–273,
289–300). -/
def adopt (sb : Sector) (slot : Fin 2) (cp : Checkpoint) : Fs where
  cp := cp
  slot := slot
  totalSectors := getU64 sb 12
  spillStart := getU64 sb 36
  spillSectors := getU64 sb 44
  auditStart := getU64 sb 52
  auditSectors := getU64 sb 60
  otaStart := getU64 sb 68
  otaSectors := getU64 sb 76

/-- `mount` (lines 258–301). -/
def mount : Blk Fs := do
  let sb ← Blk.readSector SB_SECTOR
  if getU64 sb 0 ≠ SB_MAGIC then Blk.fail "not a JLFS filesystem"
  else if intact sb = false then Blk.fail "superblock checksum mismatch"
  else do
    let a ← Blk.readSector (CP_SECTORS 0)
    let b ← Blk.readSector (CP_SECTORS 1)
    match newer (newer none 0 a) 1 b with
    | none => Blk.fail "no valid checkpoint: filesystem is unrecoverable"
    | some (slot, cp) => pure (adopt sb slot cp)

/-! ## Reading -/

namespace Fs

/-- `Fs::log_limit` (lines 307–315). -/
def logLimit (fs : Fs) : UInt64 :=
  [fs.otaStart, fs.auditStart, fs.spillStart].foldl
    (fun limit r => if r ≠ 0 ∧ r < limit then r else limit) fs.totalSectors

/-- `Fs::files` (lines 317–319). -/
def files (fs : Fs) : List FileEntry := fs.cp.files.toList.take fs.cp.count

/-- `Fs::find` (lines 321–323). -/
def find (fs : Fs) (name : String) : Option ℕ := fs.files.findIdx? fun f => f.nameStr == name

/-- `Fs::entry` (lines 469–471). -/
def entry (fs : Fs) (name : String) : Option FileEntry :=
  (fs.find name).bind fun i => fs.cp.files[i]?

/-- The loop of `Fs::read` (lines 334–342), with `fuel` sectors left; `s` are
done, and `done` bytes. -/
def readLoop (start : UInt64) (size : ℕ) : (fuel s done : ℕ) → List UInt8 → Blk (List UInt8)
  | 0, _, _, out => pure out
  | fuel + 1, s, done, out => do
    let pos ← Blk.addU64 start (UInt64.ofNat s)
    let sector ← Blk.readSector pos.toNat
    let n := min (size - done) SECTOR_SIZE
    let out := out.take done ++ sector.toList.take n ++ out.drop (done + n)
    if done + n = size then pure out
    else readLoop start size fuel (s + 1) (done + n) out

/-- `Fs::read` (lines 325–344): the length it returns, and `out` as it leaves
it. -/
def read (fs : Fs) (name : String) (out : List UInt8) : Blk (ℕ × List UInt8) :=
  match fs.entry name with
  | none => Blk.fail "no such file"
  | some entry =>
    if out.length < entry.size.toNat then Blk.fail "buffer too small"
    else do
      let out ← readLoop entry.start entry.size.toNat entry.sectors.toNat 0 0 out
      pure (entry.size.toNat, out)

/-! ## Writing -/

/-- The directory entry `Fs::write` makes (lines 412–416). -/
def newEntry (name : String) (data : List UInt8) (start : UInt64) (sectors : UInt32) :
    FileEntry where
  name := Vector.ofFn fun k => (asBytes name)[k.val]?.getD 0
  size := UInt32.ofNat data.length
  start := start
  sectors := sectors

/-- Sector `s` of `data`, padded with zeros (lines 384–387). -/
def dataSector (data : List UInt8) (s : ℕ) : Sector :=
  Vector.ofFn fun k => data[s * SECTOR_SIZE + k.val]?.getD 0

/-- `data.len().div_ceil(SECTOR_SIZE) as u32` (line 363). -/
def sectorsOf (data : List UInt8) : UInt32 :=
  UInt32.ofNat ((data.length + (SECTOR_SIZE - 1)) / SECTOR_SIZE)

/-- One iteration of the data loop of `Fs::write` (lines 375–389). -/
def writeDataSector (start : UInt64) (data : List UInt8) (crashAfter : Option UInt32) (s : ℕ) :
    Blk Unit :=
  if crashAfter = some (UInt32.ofNat s) then Blk.halt .powerOff
  else do
    let pos ← Blk.addU64 start (UInt64.ofNat s)
    Blk.writeSector pos.toNat (dataSector data s)

/-- The next root of `Fs::write` (lines 400–416). -/
def nextRoot (fs : Fs) (name : String) (e : FileEntry) (seq logHead : UInt64) :
    Blk Checkpoint :=
  match fs.find name with
  | some i => pure
      { seq := seq, logHead := logHead, files := fs.cp.files.setIfInBounds i e,
        count := fs.cp.count }
  | none =>
    if fs.cp.count = MAX_FILES then Blk.fail "directory is full"
    else pure
      { seq := seq, logHead := logHead, files := fs.cp.files.setIfInBounds fs.cp.count e,
        count := fs.cp.count + 1 }

/-- `Fs::write` up to its checkpoint (lines 360–416): the data, and the root
that will make it visible. -/
def stageWrite (fs : Fs) (name : String) (data : List UInt8) (crashAfter : Option UInt32) :
    Blk Checkpoint :=
  if name.utf8ByteSize > MAX_NAME then Blk.fail "name too long"
  else do
    let sectors := sectorsOf data
    let start := fs.cp.logHead
    let stop ← Blk.addU64 start sectors.toUInt64
    if stop > fs.logLimit then Blk.fail "log is full"
    else do
      Blk.forRange sectors.toNat (writeDataSector start data crashAfter)
      if crashAfter = some sectors then Blk.halt .powerOff
      else do
        let seq ← Blk.addU64 fs.cp.seq 1
        let logHead ← Blk.addU64 start sectors.toUInt64
        fs.nextRoot name (newEntry name data start sectors) seq logHead

/-- The directory without entry `i`: the tail moves down by one (lines 444–449). -/
def shiftDown (files : Vector FileEntry MAX_FILES) (i count : ℕ) : Vector FileEntry MAX_FILES :=
  ((List.range' i (count - 1 - i)).foldl
    (fun fs j => fs.setIfInBounds j (fs[j + 1]?.getD FileEntry.empty)) files).setIfInBounds
    (count - 1) FileEntry.empty

/-- `Fs::set_entry` up to its checkpoint (lines 433–460); `none` where there is
nothing to commit. -/
def stageEntry (fs : Fs) (name : String) (entry : Option FileEntry) : Blk (Option Checkpoint) := do
  let seq ← Blk.addU64 fs.cp.seq 1
  let next : Checkpoint := { fs.cp with seq := seq }
  match fs.find name, entry with
  | some i, some e => pure (some { next with files := fs.cp.files.setIfInBounds i e })
  | some i, none => pure (some
      { next with files := shiftDown fs.cp.files i fs.cp.count, count := fs.cp.count - 1 })
  | none, some e =>
    if fs.cp.count = MAX_FILES then Blk.fail "directory is full"
    else pure (some { next with
      files := fs.cp.files.setIfInBounds fs.cp.count e, count := fs.cp.count + 1 })
  | none, none => pure none

/-- The checkpoint write and the switch of the live root that end `Fs::write`
(lines 418–422) and `Fs::set_entry` (lines 462–465). -/
def commit (fs : Fs) (next : Checkpoint) : Blk Fs := do
  let target := 1 - fs.slot
  Blk.writeSector (CP_SECTORS target) next.encode
  pure { fs with cp := next, slot := target }

/-- `Fs::write` (lines 353–423). -/
def write (fs : Fs) (name : String) (data : List UInt8) (crashAfter : Option UInt32) : Blk Fs := do
  let next ← fs.stageWrite name data crashAfter
  fs.commit next

/-- `Fs::set_entry` (lines 433–466). -/
def setEntry (fs : Fs) (name : String) (entry : Option FileEntry) : Blk Fs := do
  match ← fs.stageEntry name entry with
  | none => pure fs
  | some next => fs.commit next

/-! ## Space -/

/-- `Fs::usage` (lines 477–481). -/
def usage (fs : Fs) : Blk (UInt64 × UInt64) := do
  let used ← Blk.subU64 fs.cp.logHead LOG_START
  let live ← fs.files.foldlM (fun sum f => Blk.addU64 sum f.sectors.toUInt64) 0
  let garbage ← Blk.subU64 used live
  pure (used, garbage)

end Fs

/-! ## Test state (lines 484–507) -/

def TEST_MAGIC : UInt64 := 0x4A4C465354455354

/-- The phase that a test-state sector holds (lines 495–498). -/
def phaseIn (raw : Sector) : UInt64 :=
  if getU64 raw 0 ≠ TEST_MAGIC ∨ intact raw = false then 0 else getU64 raw 8

/-- `read_phase` (lines 490–499). -/
def readPhase : Blk UInt64 := do
  match ← Blk.attempt (Blk.readSector TEST_STATE_SECTOR) with
  | .error _ => pure 0
  | .ok raw => pure (phaseIn raw)

/-- The sector that `write_phase` writes (lines 502–505). -/
def phaseSector (phase : UInt64) : Sector :=
  sealSector (putU64 (putU64 blankSector 0 TEST_MAGIC) 8 phase)

/-- `write_phase` (lines 501–507). -/
def writePhase (phase : UInt64) : Blk Unit :=
  Blk.writeSector TEST_STATE_SECTOR (phaseSector phase)

end JungeyOs.Jlfs
