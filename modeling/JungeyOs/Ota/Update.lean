import JungeyOs.Ota.Control

/-!
# Installing, booting and confirming an update

Models of `kernel/src/ota.rs`, lines 154–346, and of what `stage7c_demo`
(`kernel/src/main.rs`, lines 2305–2399) does with them on each boot. A function
that takes `&mut Control` returns the control block as it leaves it, whether it
ends with `Ok` or with `Err`.

Results:
* `slice_imageAt`: the bytes that `load` measures are those of the slot.
* `imageAt_of_slices`: a slot into which an image was written holds that image.
-/

namespace JungeyOs.Ota

open JungeyOs.Bytes JungeyOs.Jlfs

/-! ## The control block on disk (lines 154–174) -/

/-- `slot_sector` (lines 158–160). -/
def slotSector (f : Fs) (slot : Fin 2) : Blk UInt64 := do
  let first ← Blk.addU64 f.otaStart 1
  Blk.addU64 first (UInt64.ofNat slot.val * OTA_SLOT_SECTORS)

theorem toNat_slotOffset (slot : Fin 2) :
    (UInt64.ofNat slot.val * OTA_SLOT_SECTORS).toNat = slot.val * 64 := by
  match slot with
  | 0 => rfl
  | 1 => rfl

/-- `read_control` (lines 162–166); `control_sector` is `f.ota_start`. -/
def readControl (f : Fs) : Blk (Option Control) := do
  match ← Blk.attempt (Blk.readSector f.otaStart.toNat) with
  | .error _ => pure none
  | .ok raw => pure (Control.decode raw)

/-- `write_control` (lines 171–174). -/
def writeControl (f : Fs) (c : Control) : Blk (Except String Unit × Control) := do
  let seq ← Blk.addU64 c.seq 1
  let c := { c with seq := seq }
  let r ← Blk.attempt (Blk.writeSector f.otaStart.toNat c.encode)
  pure (r, c)

/-! ## Installing (lines 194–221) -/

/-- The loop that writes an image into a slot (lines 207–210 and 335–338). -/
def writeImage (f : Fs) (slot : Fin 2) (img : ImageBytes) : Blk Unit := do
  let base ← slotSector f slot
  Blk.forRange (IMAGE_BYTES / SECTOR_SIZE) fun s => do
    let pos ← Blk.addU64 base (UInt64.ofNat s)
    Blk.writeSector pos.toNat (slice img (s * SECTOR_SIZE) SECTOR_SIZE)

/-- What `stage` records about a slot it has written (lines 215–219). -/
def Control.staged (c : Control) (slot : Fin 2) (version : UInt64) (healthy : Bool) : Control :=
  { c with
    version := Function.update c.version slot version
    digest := Function.update c.digest slot (JungeyOs.digest (buildImage version healthy).toList)
    state := Function.update c.state slot .unverified
    active := slot
    tries := MAX_TRIES }

/-- `stage` (lines 197–221). -/
def stage (f : Fs) (c : Control) (slot : Fin 2) (version : UInt64) (healthy : Bool) :
    Blk (Except String Unit × Control) := do
  match ← Blk.attempt (writeImage f slot (buildImage version healthy)) with
  | .error e => pure (.error e, c)
  | .ok _ => writeControl f (c.staged slot version healthy)

/-! ## Measuring (lines 223–245) -/

/-- `Image` (lines 223–227). -/
structure Image where
  version : UInt64
  flags : UInt64
  digest : Vector UInt8 32

/-- The loop of `load` (lines 233–236) over the first `k` sectors. -/
def readImage (base : UInt64) : (k : ℕ) → Blk ImageBytes
  | 0 => pure (Vector.replicate IMAGE_BYTES 0)
  | k + 1 => do
    let img ← readImage base k
    let pos ← Blk.addU64 base (UInt64.ofNat k)
    let sector ← Blk.readSector pos.toNat
    pure (blit img (k * SECTOR_SIZE) sector)

/-- What `load` makes of the bytes of a slot (lines 237–244). -/
def measure (img : ImageBytes) : Except String Image :=
  if getU64 img 0 ≠ IMG_MAGIC then .error "slot holds no system image"
  else .ok
    { version := imageVersion img
      flags := getU64 img 16
      digest := JungeyOs.digest img.toList }

/-- `load` (lines 231–245). -/
def load (f : Fs) (slot : Fin 2) : Blk Image := do
  let base ← slotSector f slot
  let img ← readImage base (IMAGE_BYTES / SECTOR_SIZE)
  match measure img with
  | .error e => Blk.fail e
  | .ok image => pure image

/-! ## Booting (lines 247–312) -/

/-- `Outcome` (lines 248–259). -/
inductive Outcome
  | fresh
  | trying (slot : Fin 2) (version : UInt64) (triesLeft : UInt8) (healthy : Bool)
  | rolledBack (source target : Fin 2) (version : UInt64)
  | running (slot : Fin 2) (version : UInt64)
  | corrupt (slot : Fin 2)
  deriving DecidableEq

/-- `u8::saturating_add(1)`. -/
def saturatingSucc (v : UInt8) : UInt8 := if v = 255 then 255 else v + 1

/-- `u8::saturating_sub(1)`. -/
def saturatingPred (v : UInt8) : UInt8 := if v = 0 then 0 else v - 1

/-- `boot` from the measurement of the active slot on (lines 288–311). -/
def bootActive (f : Fs) (c : Control) : Blk (Control × Outcome) := do
  let slot := c.active
  match ← Blk.attempt (load f slot) with
  | .error _ => pure (c, .corrupt slot)
  | .ok img =>
    if img.digest ≠ c.digest slot ∨ img.version ≠ c.version slot then pure (c, .corrupt slot)
    else if c.state slot = .unverified then do
      let c := { c with tries := saturatingPred c.tries }
      let (_, c) ← writeControl f c
      pure (c, .trying slot img.version c.tries (img.flags &&& FLAG_HEALTHY != 0))
    else pure (c, .running slot img.version)

/-- `boot` (lines 262–312). -/
def boot (f : Fs) : Blk (Control × Outcome) := do
  match ← readControl f with
  | none => pure (Control.blank, .fresh)
  | some c =>
    if c.state c.active = .unverified ∧ c.tries = 0 then
      let source := c.active
      let target := c.other
      if c.state target = .successful then do
        let c := { c with
          state := Function.update c.state source .failed
          active := target
          rollbacks := saturatingSucc c.rollbacks }
        let (_, c) ← writeControl f c
        pure (c, .rolledBack source target (c.version target))
      else do
        let (_, c) ← writeControl f { c with tries := 1 }
        bootActive f c
    else bootActive f c

/-! ## Confirming and initialising (lines 314–346) -/

/-- What `mark_successful` makes of the control block (lines 317–325). -/
def Control.confirmed (c : Control) : Control :=
  let c := { c with state := Function.update c.state c.active .successful, tries := 0 }
  if c.state c.other = .successful then
    { c with state := Function.update c.state c.other .empty }
  else c

/-- `mark_successful` (lines 316–327). -/
def markSuccessful (f : Fs) (c : Control) : Blk (Except String Unit × Control) :=
  writeControl f c.confirmed

/-- The control block of `initialise` (lines 339–343). -/
def Control.initial : Control :=
  { Control.blank with
    version := Function.update Control.blank.version 0 1
    digest := Function.update Control.blank.digest 0 (JungeyOs.digest (buildImage 1 true).toList)
    state := Function.update Control.blank.state 0 .successful
    active := 0
    tries := 0 }

/-- `initialise` (lines 331–346). -/
def initialise (f : Fs) : Blk Control := do
  writeImage f 0 (buildImage 1 true)
  match ← writeControl f Control.initial with
  | (.error e, _) => Blk.fail e
  | (.ok _, c) => pure c

/-! ## One boot (`main.rs`, lines 2305–2399) -/

/-- The update service at the end of a boot: it may stage an update into the other
slot, if the active one is `Successful`. -/
def offer (f : Fs) (c : Control) : Option (UInt64 × Bool) → Blk Unit
  | none => pure ()
  | some (version, healthy) =>
    if c.state c.active = .successful then do
      let _ ← stage f c c.other version healthy
      pure ()
    else pure ()

/-- `stage7c_demo`: `confirm` says whether a slot on probation is marked
successful, `update` what is staged afterwards. -/
def stage7c (confirm : Bool) (update : Option (UInt64 × Bool)) : Blk Unit := do
  match ← Blk.attempt mount with
  | .error _ => pure ()
  | .ok f => do
    let (c, outcome) ← boot f
    match outcome with
    | .fresh =>
      match ← Blk.attempt (initialise f) with
      | .error _ => pure ()
      | .ok c => offer f c update
    | .trying _ _ _ _ =>
      if confirm then do
        let (_, c) ← markSuccessful f c
        offer f c update
      else offer f c update
    | _ => offer f c update

/-! ## The bytes of a slot -/

/-- The first `k` sectors from `base` on, as one image. -/
def imageAt (disk : Disk) (base : ℕ) : (k : ℕ) → ImageBytes
  | 0 => Vector.replicate IMAGE_BYTES 0
  | k + 1 => blit (imageAt disk base k) (k * SECTOR_SIZE) (disk (base + k))

/-- Sector `s` of what `load` reads is sector `s` of the slot. -/
theorem slice_imageAt (disk : Disk) (base : ℕ) {k s : ℕ} (hk : k ≤ 8) (hs : s < k) :
    slice (imageAt disk base k) (s * SECTOR_SIZE) SECTOR_SIZE = disk (base + s) := by
  induction k with
  | zero => omega
  | succ k ih =>
    rw [imageAt]
    rcases Nat.lt_succ_iff_lt_or_eq.mp hs with hlt | rfl
    · have hend : s * SECTOR_SIZE + SECTOR_SIZE ≤ k * SECTOR_SIZE := by
        rw [← Nat.succ_mul]
        exact Nat.mul_le_mul_right _ hlt
      rw [slice_blit_of_disjoint _ _ _ _ (.inl hend), ih (by omega) hlt]
    · have hend : s * SECTOR_SIZE + SECTOR_SIZE ≤ 8 * SECTOR_SIZE := by
        rw [← Nat.succ_mul]
        exact Nat.mul_le_mul_right _ hk
      exact slice_blit_self _ _ _ hend

/-- A slot into which every sector of an image was written holds that image. -/
theorem imageAt_of_slices {disk : Disk} {base : ℕ} {img : ImageBytes}
    (h : ∀ s < 8, disk (base + s) = slice img (s * SECTOR_SIZE) SECTOR_SIZE) :
    imageAt disk base 8 = img := by
  refine ext_of_slices (m := SECTOR_SIZE) (k := 8) (by decide) fun s hs => ?_
  rw [slice_imageAt disk base le_rfl hs, h s hs]

/-- The bytes of a slot depend on its own sectors only. -/
theorem imageAt_congr {disk disk' : Disk} {base : ℕ} (k : ℕ)
    (h : ∀ s < k, disk (base + s) = disk' (base + s)) :
    imageAt disk base k = imageAt disk' base k := by
  induction k with
  | zero => rfl
  | succ k ih =>
    rw [imageAt, imageAt, ih fun s hs => h s (Nat.lt_succ_of_lt hs), h k k.lt_succ_self]

end JungeyOs.Ota
