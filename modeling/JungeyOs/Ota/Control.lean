import JungeyOs.Jlfs.OpsLemmas
import JungeyOs.Sha256

/-!
# The boot control block and the system image

Models of `kernel/src/ota.rs`, lines 35–192: the control block with its sector
format, and the synthetic system image.

Results:
* `Control.decode_encode`: a control block is read back field for field from the
  sector it was written to.
* `imageVersion_buildImage`: an image carries the version it was built for.
-/

namespace JungeyOs.Ota

open JungeyOs.Bytes JungeyOs.Jlfs

/-! ## Constants (lines 35–51) -/

def CB_MAGIC : UInt64 := 0x4A424F4F54434230
def IMG_MAGIC : UInt64 := 0x4A535953494D4730
def MAX_TRIES : UInt8 := 2
def IMAGE_BYTES : ℕ := 4096
def IMAGE_HEADER : ℕ := 32
def FLAG_HEALTHY : UInt64 := 1

/-! ## Slot states (lines 53–89) -/

/-- `SlotState` (lines 53–62). -/
inductive SlotState
  | empty
  | unverified
  | successful
  | failed
  deriving DecidableEq, Repr

/-- `SlotState::from` (lines 65–72). -/
def SlotState.ofByte (v : UInt8) : SlotState :=
  if v = 1 then .unverified else if v = 2 then .successful else if v = 3 then .failed else .empty

/-- `SlotState::to` (lines 73–80). -/
def SlotState.toByte : SlotState → UInt8
  | .empty => 0
  | .unverified => 1
  | .successful => 2
  | .failed => 3

@[simp] theorem SlotState.ofByte_toByte (s : SlotState) : ofByte s.toByte = s := by
  cases s <;> rfl

/-! ## The control block (lines 91–152) -/

/-- `Control` (lines 91–100). A `[T; 2]` is indexed by the slot. -/
structure Control where
  seq : UInt64
  active : Fin 2
  tries : UInt8
  rollbacks : UInt8
  state : Fin 2 → SlotState
  version : Fin 2 → UInt64
  digest : Fin 2 → Vector UInt8 32

attribute [ext] Control

section Bytes

variable {n m : ℕ} {b : Vector UInt8 n} {pos pos' : ℕ}

/-- `raw[pos] = v`. -/
def putU8 (b : Vector UInt8 n) (pos : ℕ) (v : UInt8) : Vector UInt8 n := blit b pos #v[v]

/-- `raw[pos]`. -/
def getU8 (b : Vector UInt8 n) (pos : ℕ) : UInt8 := (slice b pos 1)[0]

theorem getU8_putU8 (v : UInt8) (h : pos + 1 ≤ n) : getU8 (putU8 b pos v) pos = v := by
  rw [getU8, putU8, slice_blit_self _ _ _ h]
  rfl

theorem getU8_blit (src : Vector UInt8 m) (h : pos + 1 ≤ pos' ∨ pos' + m ≤ pos) :
    getU8 (blit b pos' src) pos = getU8 b pos := by
  rw [getU8, slice_blit_of_disjoint _ _ _ _ h, getU8]

end Bytes

namespace Control

/-- `Control::blank` (lines 103–113). -/
def blank : Control :=
  ⟨0, 0, 0, 0, fun _ => .empty, fun _ => 0, fun _ => Vector.replicate 32 0⟩

/-- `Control::other` (lines 115–117). -/
def other (c : Control) : Fin 2 := 1 - c.active

/-- `Control::decode` (lines 119–134). -/
def decode (raw : Sector) : Option Control :=
  if getU64 raw 0 ≠ CB_MAGIC ∨ intact raw = false then none
  else some
    { seq := getU64 raw 8
      active := Fin.ofNat 2 (getU8 raw 16 &&& 1).toNat
      tries := getU8 raw 17
      rollbacks := getU8 raw 18
      state := fun i => SlotState.ofByte (getU8 raw (19 + i.val))
      version := fun i => getU64 raw (24 + i.val * 8)
      digest := fun i => slice raw (40 + i.val * 32) 32 }

/-- `Control::encode` up to the seal (lines 137–148). -/
def body (c : Control) : Sector :=
  let raw := putU64 blankSector 0 CB_MAGIC
  let raw := putU64 raw 8 c.seq
  let raw := putU8 raw 16 (UInt8.ofNat c.active.val)
  let raw := putU8 raw 17 c.tries
  let raw := putU8 raw 18 c.rollbacks
  let raw := putU8 raw 19 (c.state 0).toByte
  let raw := putU8 raw 20 (c.state 1).toByte
  let raw := putU64 raw 24 (c.version 0)
  let raw := blit raw 40 (c.digest 0)
  let raw := putU64 raw 32 (c.version 1)
  blit raw 72 (c.digest 1)

/-- `Control::encode` (lines 136–151). -/
def encode (c : Control) : Sector := sealSector c.body

theorem getU8_seal (sector : Sector) {pos : ℕ} (h : pos + 1 ≤ CRC_OFF) :
    getU8 (sealSector sector) pos = getU8 sector pos := getU8_blit _ (.inl h)

theorem ofNat_active (a : Fin 2) : Fin.ofNat 2 (UInt8.ofNat a.val &&& 1).toNat = a := by
  have ha : a = 0 ∨ a = 1 := by omega
  rcases ha with rfl | rfl <;> rfl

/-- A control block is read back field for field from the sector it was written
to. -/
theorem decode_encode (c : Control) : decode c.encode = some c := by
  have hc : CRC_OFF = 508 := rfl
  have hs : SECTOR_SIZE = 512 := rfl
  have hmagic : getU64 c.encode 0 = CB_MAGIC := by
    rw [encode, getU64_seal _ (by omega)]
    unfold body putU8
    rw [getU64_blit _ (by omega), getU64_putU64_of_disjoint _ (by omega), getU64_blit _ (by omega),
      getU64_putU64_of_disjoint _ (by omega)]
    iterate 5 rw [getU64_blit _ (by omega)]
    rw [getU64_putU64_of_disjoint _ (by omega), getU64_putU64 _ (by omega)]
  have hseq : getU64 c.encode 8 = c.seq := by
    rw [encode, getU64_seal _ (by omega)]
    unfold body putU8
    rw [getU64_blit _ (by omega), getU64_putU64_of_disjoint _ (by omega), getU64_blit _ (by omega),
      getU64_putU64_of_disjoint _ (by omega)]
    iterate 5 rw [getU64_blit _ (by omega)]
    rw [getU64_putU64 _ (by omega)]
  -- the five single bytes lie below the versions and digests
  have hbyte : ∀ pos, 16 ≤ pos → pos < 21 → getU8 c.encode pos =
      getU8 (putU8 (putU8 (putU8 (putU8 (putU8 (putU64 (putU64 blankSector 0 CB_MAGIC) 8 c.seq)
        16 (UInt8.ofNat c.active.val)) 17 c.tries) 18 c.rollbacks) 19 (c.state 0).toByte)
        20 (c.state 1).toByte) pos := by
    intro pos h1 h2
    rw [encode, getU8_seal _ (by omega)]
    unfold body putU64
    rw [getU8_blit _ (by omega), getU8_blit _ (by omega), getU8_blit _ (by omega),
      getU8_blit _ (by omega)]
  have hactive : getU8 c.encode 16 = UInt8.ofNat c.active.val := by
    rw [hbyte 16 (by omega) (by omega)]
    iterate 4 rw [putU8, getU8_blit _ (by omega)]
    exact getU8_putU8 _ (by omega)
  have htries : getU8 c.encode 17 = c.tries := by
    rw [hbyte 17 (by omega) (by omega)]
    iterate 3 rw [putU8, getU8_blit _ (by omega)]
    exact getU8_putU8 _ (by omega)
  have hrollbacks : getU8 c.encode 18 = c.rollbacks := by
    rw [hbyte 18 (by omega) (by omega)]
    iterate 2 rw [putU8, getU8_blit _ (by omega)]
    exact getU8_putU8 _ (by omega)
  have hstate : ∀ i : Fin 2, getU8 c.encode (19 + i.val) = (c.state i).toByte := by
    intro i
    rw [hbyte _ (by omega) (by omega)]
    have hi : i = 0 ∨ i = 1 := by omega
    rcases hi with rfl | rfl
    · rw [putU8, getU8_blit _ (by simp)]
      exact getU8_putU8 _ (by simp [hs])
    · exact getU8_putU8 _ (by simp [hs])
  have hversion : ∀ i : Fin 2, getU64 c.encode (24 + i.val * 8) = c.version i := by
    intro i
    rw [encode, getU64_seal _ (by omega)]
    unfold body
    have hi : i = 0 ∨ i = 1 := by omega
    rcases hi with rfl | rfl
    · rw [getU64_blit _ (by simp), getU64_putU64_of_disjoint _ (by simp), getU64_blit _ (by simp)]
      exact getU64_putU64 _ (by simp [hs])
    · rw [getU64_blit _ (by simp)]
      exact getU64_putU64 _ (by simp [hs])
  have hdigest : ∀ i : Fin 2, slice c.encode (40 + i.val * 32) 32 = c.digest i := by
    intro i
    rw [encode, slice_seal _ (by omega)]
    unfold body putU64
    have hi : i = 0 ∨ i = 1 := by omega
    rcases hi with rfl | rfl
    · rw [slice_blit_of_disjoint _ _ _ _ (by simp), slice_blit_of_disjoint _ _ _ _ (by simp)]
      exact slice_blit_self _ _ _ (by simp [hs])
    · exact slice_blit_self _ _ _ (by simp [hs])
  unfold decode
  rw [hmagic, hseq, hactive, htries, hrollbacks, if_neg (by simp [encode])]
  simp only [hstate, hversion, hdigest, SlotState.ofByte_toByte, ofNat_active]

/-- A blank sector holds no control block. -/
theorem decode_blankSector : decode blankSector = none := by
  rw [decode, getU64_blank]
  rfl

end Control

attribute [irreducible] Control.encode Control.decode

/-! ## The system image (lines 176–192) -/

/-- `[u8; IMAGE_BYTES]`. -/
abbrev ImageBytes := Vector UInt8 IMAGE_BYTES

/-- `image_byte` (lines 178–180). -/
def imageByte (version : UInt64) (offset : ℕ) : UInt8 :=
  ((UInt64.ofNat offset * 37) ^^^ (version * 1103)).toUInt8

/-- `build_image` (lines 183–192). -/
def buildImage (version : UInt64) (healthy : Bool) : ImageBytes :=
  let out := putU64 (Vector.replicate IMAGE_BYTES 0) 0 IMG_MAGIC
  let out := putU64 out 8 version
  let out := putU64 out 16 (if healthy then FLAG_HEALTHY else 0)
  let out := putU64 out 24 (UInt64.ofNat (IMAGE_BYTES - IMAGE_HEADER))
  blit out IMAGE_HEADER
    (Vector.ofFn fun i : Fin (IMAGE_BYTES - IMAGE_HEADER) =>
      imageByte version (IMAGE_HEADER + i.val))

/-- The version that an image carries. -/
def imageVersion (img : ImageBytes) : UInt64 := getU64 img 8

/-- An image says that it is one. -/
theorem magic_buildImage (version : UInt64) (healthy : Bool) :
    getU64 (buildImage version healthy) 0 = IMG_MAGIC := by
  have hh : IMAGE_HEADER = 32 := rfl
  have hb : IMAGE_BYTES = 4096 := rfl
  unfold buildImage
  rw [getU64_blit _ (by omega), getU64_putU64_of_disjoint _ (by omega),
    getU64_putU64_of_disjoint _ (by omega), getU64_putU64_of_disjoint _ (by omega),
    getU64_putU64 _ (by omega)]

/-- An image carries the version it was built for. -/
theorem imageVersion_buildImage (version : UInt64) (healthy : Bool) :
    imageVersion (buildImage version healthy) = version := by
  have hh : IMAGE_HEADER = 32 := rfl
  have hb : IMAGE_BYTES = 4096 := rfl
  unfold imageVersion buildImage
  rw [getU64_blit _ (by omega), getU64_putU64_of_disjoint _ (by omega),
    getU64_putU64_of_disjoint _ (by omega), getU64_putU64 _ (by omega)]

end JungeyOs.Ota
