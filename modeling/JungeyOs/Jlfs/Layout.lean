import JungeyOs.Blk
import Mathlib.Data.Fin.VecNotation

/-!
# The on-disk layout of JLFS

Models of `kernel/src/fs.rs`, lines 34–199: the little-endian field helpers, the
sector checksum, and the checkpoint sector.

Results:
* `intact_seal`: a sealed sector passes its own check.
* `Checkpoint.decode_encode`: a well-formed checkpoint is read back field for
  field from the sector it was written to.
* `Checkpoint.decode_wf`: whatever decodes is well formed.
-/

namespace JungeyOs.Jlfs

open JungeyOs.Bytes

/-! ## Constants (lines 36–79) -/

def SB_SECTOR : ℕ := 0
def SPILL_SECTORS : UInt64 := 16 * 1024
def AUDIT_SECTORS : UInt64 := 2048
def OTA_SLOT_SECTORS : UInt64 := 64
def OTA_SECTORS : UInt64 := 1 + 2 * OTA_SLOT_SECTORS
def CP_SECTORS : Fin 2 → ℕ := ![1, 2]
def TEST_STATE_SECTOR : ℕ := 4
def LOG_START : UInt64 := 8

def SB_MAGIC : UInt64 := 0x4A4C46535F534230
def CP_MAGIC : UInt64 := 0x4A4C46535F435030

def MAX_FILES : ℕ := 8
def MAX_NAME : ℕ := 28

/-- Checkpoint sectors and system slots come in pairs, numbered 0 and 1. -/
instance neZeroPair : NeZero 2 := ⟨Nat.succ_ne_zero 1⟩

def ENTRY_SIZE : ℕ := 48
def ENTRIES_OFF : ℕ := 32
def CRC_OFF : ℕ := SECTOR_SIZE - 4

theorem cpSector_cases (slot : Fin 2) : CP_SECTORS slot = 1 ∨ CP_SECTORS slot = 2 := by
  match slot with
  | 0 => exact .inl rfl
  | 1 => exact .inr rfl

theorem cpSector_ne {a b : Fin 2} (h : a ≠ b) : CP_SECTORS a ≠ CP_SECTORS b := by
  match a, b with
  | 0, 0 => exact absurd rfl h
  | 0, 1 => simp [CP_SECTORS]
  | 1, 0 => simp [CP_SECTORS]
  | 1, 1 => exact absurd rfl h

/-! ## Little-endian fields (lines 81–94) -/

section Fields

variable {n m : ℕ}

def putU32 (b : Vector UInt8 n) (pos : ℕ) (v : UInt32) : Vector UInt8 n :=
  blit b pos (leBytes 4 v.toNat)

def putU64 (b : Vector UInt8 n) (pos : ℕ) (v : UInt64) : Vector UInt8 n :=
  blit b pos (leBytes 8 v.toNat)

def getU32 (b : Vector UInt8 n) (pos : ℕ) : UInt32 := UInt32.ofNat (ofLE (slice b pos 4).toList)

def getU64 (b : Vector UInt8 n) (pos : ℕ) : UInt64 := UInt64.ofNat (ofLE (slice b pos 8).toList)

variable {b : Vector UInt8 n} {pos pos' : ℕ}

theorem getU32_putU32 (v : UInt32) (h : pos + 4 ≤ n) : getU32 (putU32 b pos v) pos = v := by
  rw [getU32, putU32, slice_blit_self _ _ _ h, ofLE_leBytes v.toNat_lt, UInt32.ofNat_toNat]

theorem getU64_putU64 (v : UInt64) (h : pos + 8 ≤ n) : getU64 (putU64 b pos v) pos = v := by
  rw [getU64, putU64, slice_blit_self _ _ _ h, ofLE_leBytes v.toNat_lt, UInt64.ofNat_toNat]

theorem getU32_blit (src : Vector UInt8 m) (h : pos + 4 ≤ pos' ∨ pos' + m ≤ pos) :
    getU32 (blit b pos' src) pos = getU32 b pos := by
  rw [getU32, slice_blit_of_disjoint _ _ _ _ h, getU32]

theorem getU64_blit (src : Vector UInt8 m) (h : pos + 8 ≤ pos' ∨ pos' + m ≤ pos) :
    getU64 (blit b pos' src) pos = getU64 b pos := by
  rw [getU64, slice_blit_of_disjoint _ _ _ _ h, getU64]

/-- A field tells apart the bytes it is read from. -/
theorem slice_of_getU64 {b b' : Vector UInt8 n} (h : getU64 b pos = getU64 b' pos) :
    slice b pos 8 = slice b' pos 8 := by
  have hlt : ∀ b : Vector UInt8 n, ofLE (slice b pos 8).toList < 2 ^ 64 := fun b => by
    have hofLE := ofLE_lt (slice b pos 8).toList
    rwa [Vector.length_toList] at hofLE
  have hnat := congrArg UInt64.toNat h
  rw [getU64, getU64, UInt64.toNat_ofNat', UInt64.toNat_ofNat', Nat.mod_eq_of_lt (hlt b),
    Nat.mod_eq_of_lt (hlt b')] at hnat
  exact Vector.toList_inj.mp (ofLE_inj (by simp) hnat)

theorem getU64_slice {len : ℕ} (b : Vector UInt8 n) (first : ℕ) (h : pos + 8 ≤ len) :
    getU64 (slice b first len) pos = getU64 b (first + pos) := by
  rw [getU64, getU64, slice_slice b h]

theorem getU32_putU32_of_disjoint (v : UInt32) (h : pos + 4 ≤ pos' ∨ pos' + 4 ≤ pos) :
    getU32 (putU32 b pos' v) pos = getU32 b pos := getU32_blit _ h

theorem getU32_putU64 (v : UInt64) (h : pos + 4 ≤ pos' ∨ pos' + 8 ≤ pos) :
    getU32 (putU64 b pos' v) pos = getU32 b pos := getU32_blit _ h

theorem getU64_putU32 (v : UInt32) (h : pos + 8 ≤ pos' ∨ pos' + 4 ≤ pos) :
    getU64 (putU32 b pos' v) pos = getU64 b pos := getU64_blit _ h

theorem getU64_putU64_of_disjoint (v : UInt64) (h : pos + 8 ≤ pos' ∨ pos' + 8 ≤ pos) :
    getU64 (putU64 b pos' v) pos = getU64 b pos := getU64_blit _ h

end Fields

/-- `[0u8; SECTOR_SIZE]`. -/
def blankSector : Sector := Vector.replicate SECTOR_SIZE 0

/-! ## Checksum (lines 96–122) -/

/-- The inner loop body of `crc32`. -/
def crcBit (crc : UInt32) : UInt32 :=
  let mask := 0 - (crc &&& 1)
  (crc >>> 1) ^^^ (0xEDB88320 &&& mask)

/-- `crc32` (lines 98–108). -/
def crc32 (data : List UInt8) : UInt32 :=
  ~~~(data.foldl (fun crc byte => crcBit^[8] (crc ^^^ byte.toUInt32)) 0xFFFFFFFF)

/-- `seal` (lines 114–117). -/
def sealSector (sector : Sector) : Sector :=
  putU32 sector CRC_OFF (crc32 (slice sector 0 CRC_OFF).toList)

/-- `intact` (lines 120–122). -/
def intact (sector : Sector) : Bool :=
  crc32 (slice sector 0 CRC_OFF).toList == getU32 sector CRC_OFF

/-- A sealed sector passes its own check. -/
@[simp] theorem intact_seal (sector : Sector) : intact (sealSector sector) = true := by
  have hbody : slice (sealSector sector) 0 CRC_OFF = slice sector 0 CRC_OFF :=
    slice_blit_of_disjoint _ _ _ _ (.inl (by simp [CRC_OFF]))
  have hcrc : getU32 (sealSector sector) CRC_OFF = crc32 (slice sector 0 CRC_OFF).toList :=
    getU32_putU32 _ (by simp [CRC_OFF, SECTOR_SIZE])
  rw [intact, hbody, hcrc, beq_self_eq_true]

theorem getU64_seal (sector : Sector) {pos : ℕ} (h : pos + 8 ≤ CRC_OFF) :
    getU64 (sealSector sector) pos = getU64 sector pos := getU64_putU32 _ (.inl h)

theorem getU32_seal (sector : Sector) {pos : ℕ} (h : pos + 4 ≤ CRC_OFF) :
    getU32 (sealSector sector) pos = getU32 sector pos := getU32_putU32_of_disjoint _ (.inl h)

theorem slice_seal (sector : Sector) {pos len : ℕ} (h : pos + len ≤ CRC_OFF) :
    slice (sealSector sector) pos len = slice sector pos len :=
  slice_blit_of_disjoint _ _ _ _ (.inl h)

/-! ## Directory entries (lines 124–141) -/

/-- `FileEntry` (lines 124–130). -/
structure FileEntry where
  name : Vector UInt8 MAX_NAME
  size : UInt32
  start : UInt64
  sectors : UInt32
  deriving DecidableEq

attribute [ext] FileEntry

/-- `FileEntry::empty` (lines 133–135). -/
def FileEntry.empty : FileEntry := ⟨Vector.replicate MAX_NAME 0, 0, 0, 0⟩

/-- `str::as_bytes`. -/
def asBytes (s : String) : List UInt8 := s.toByteArray.data.toList

theorem length_asBytes (s : String) : (asBytes s).length = s.utf8ByteSize := rfl

/-- `core::str::from_utf8` on a list of bytes. -/
def fromUtf8 (bytes : List UInt8) : Option String := String.fromUTF8? ⟨bytes.toArray⟩

@[simp] theorem fromUtf8_asBytes (s : String) : fromUtf8 (asBytes s) = some s := by
  have hbytes : (⟨(asBytes s).toArray⟩ : ByteArray) = s.toByteArray := by
    rw [asBytes, Array.toArray_toList]
  rw [fromUtf8, hbytes, String.fromUTF8?, dif_pos s.isValidUTF8]
  rfl

/-- `FileEntry::name_str` (lines 137–140): the bytes before the first NUL. -/
def FileEntry.nameStr (e : FileEntry) : String :=
  (fromUtf8 (e.name.toList.takeWhile (· ≠ 0))).getD "<invalid>"

/-! ## Checkpoints (lines 143–200) -/

/-- `Checkpoint` (lines 143–148). -/
structure Checkpoint where
  seq : UInt64
  logHead : UInt64
  files : Vector FileEntry MAX_FILES
  count : ℕ

namespace Checkpoint

/-- `Checkpoint::new` (lines 151–158). -/
def new : Checkpoint := ⟨1, LOG_START, Vector.replicate MAX_FILES FileEntry.empty, 0⟩

/-- The entry at byte `ENTRIES_OFF + i * ENTRY_SIZE` of a checkpoint sector. -/
def getEntry (raw : Sector) (i : ℕ) : FileEntry :=
  let pos := ENTRIES_OFF + i * ENTRY_SIZE
  { name := slice raw pos MAX_NAME
    size := getU32 raw (pos + 28)
    start := getU64 raw (pos + 32)
    sectors := getU32 raw (pos + 40) }

/-- `Checkpoint::decode` (lines 160–182). -/
def decode (raw : Sector) : Option Checkpoint :=
  if getU64 raw 0 ≠ CP_MAGIC ∨ intact raw = false then none
  else
    let count := (getU32 raw 24).toNat
    if count > MAX_FILES then none
    else some
      { seq := getU64 raw 8
        logHead := getU64 raw 16
        files := Vector.ofFn fun i => if i.val < count then getEntry raw i.val else FileEntry.empty
        count := count }

/-- The loop body of `Checkpoint::encode` (lines 191–195). -/
def putEntry (raw : Sector) (i : ℕ) (e : FileEntry) : Sector :=
  let pos := ENTRIES_OFF + i * ENTRY_SIZE
  putU32 (putU64 (putU32 (blit raw pos e.name) (pos + 28) e.size) (pos + 32) e.start)
    (pos + 40) e.sectors

/-- The four header fields that `encode` writes before the entries
(lines 185–189). -/
def header (cp : Checkpoint) : Sector :=
  putU32 (putU64 (putU64 (putU64 blankSector 0 CP_MAGIC) 8 cp.seq) 16 cp.logHead)
    24 (UInt32.ofNat cp.count)

/-- The header followed by the first `k` entries. -/
def putEntries (cp : Checkpoint) : ℕ → Sector
  | 0 => cp.header
  | k + 1 => putEntry (cp.putEntries k) k (cp.files[k]?.getD FileEntry.empty)

/-- `Checkpoint::encode` (lines 184–199). -/
def encode (cp : Checkpoint) : Sector := sealSector (cp.putEntries cp.count)

/-- What every checkpoint the code builds satisfies: the directory fits, and the
entries past the last one are empty. -/
structure WF (cp : Checkpoint) : Prop where
  count_le : cp.count ≤ MAX_FILES
  empty : ∀ i (h : i < MAX_FILES), cp.count ≤ i → cp.files[i] = FileEntry.empty

theorem wf_new : new.WF := ⟨by simp [new], by simp [new]⟩

/-! ### Round trip -/

theorem getU64_putEntry (raw : Sector) (i : ℕ) (e : FileEntry) {pos : ℕ}
    (h : pos + 8 ≤ ENTRIES_OFF) : getU64 (putEntry raw i e) pos = getU64 raw pos := by
  unfold ENTRIES_OFF at h
  unfold putEntry ENTRIES_OFF ENTRY_SIZE
  simp only
  rw [getU64_putU32 _ (by omega), getU64_putU64_of_disjoint _ (by omega),
    getU64_putU32 _ (by omega), getU64_blit _ (by omega)]

theorem getU32_putEntry (raw : Sector) (i : ℕ) (e : FileEntry) {pos : ℕ}
    (h : pos + 4 ≤ ENTRIES_OFF) : getU32 (putEntry raw i e) pos = getU32 raw pos := by
  unfold ENTRIES_OFF at h
  unfold putEntry ENTRIES_OFF ENTRY_SIZE
  simp only
  rw [getU32_putU32_of_disjoint _ (by omega), getU32_putU64 _ (by omega),
    getU32_putU32_of_disjoint _ (by omega), getU32_blit _ (by omega)]

theorem getEntry_putEntry_self (raw : Sector) {i : ℕ} (e : FileEntry) (hi : i < MAX_FILES) :
    getEntry (putEntry raw i e) i = e := by
  have hm : MAX_FILES = 8 := rfl
  have hn : MAX_NAME = 28 := rfl
  have hs : SECTOR_SIZE = 512 := rfl
  apply FileEntry.ext
  · simp only [getEntry, putEntry, putU32, putU64, ENTRIES_OFF, ENTRY_SIZE]
    rw [slice_blit_of_disjoint _ _ _ _ (by omega), slice_blit_of_disjoint _ _ _ _ (by omega),
      slice_blit_of_disjoint _ _ _ _ (by omega), slice_blit_self _ _ _ (by omega)]
  · simp only [getEntry, putEntry, ENTRIES_OFF, ENTRY_SIZE]
    rw [getU32_putU32_of_disjoint _ (by omega), getU32_putU64 _ (by omega),
      getU32_putU32 _ (by omega)]
  · simp only [getEntry, putEntry, ENTRIES_OFF, ENTRY_SIZE]
    rw [getU64_putU32 _ (by omega), getU64_putU64 _ (by omega)]
  · simp only [getEntry, putEntry, ENTRIES_OFF, ENTRY_SIZE]
    rw [getU32_putU32 _ (by omega)]

theorem getEntry_putEntry_of_lt (raw : Sector) {i j : ℕ} (e : FileEntry) (h : i < j) :
    getEntry (putEntry raw j e) i = getEntry raw i := by
  have hn : MAX_NAME = 28 := rfl
  apply FileEntry.ext
  · simp only [getEntry, putEntry, putU32, putU64, ENTRIES_OFF, ENTRY_SIZE]
    rw [slice_blit_of_disjoint _ _ _ _ (by omega), slice_blit_of_disjoint _ _ _ _ (by omega),
      slice_blit_of_disjoint _ _ _ _ (by omega), slice_blit_of_disjoint _ _ _ _ (by omega)]
  · simp only [getEntry, putEntry, ENTRIES_OFF, ENTRY_SIZE]
    rw [getU32_putU32_of_disjoint _ (by omega), getU32_putU64 _ (by omega),
      getU32_putU32_of_disjoint _ (by omega), getU32_blit _ (by omega)]
  · simp only [getEntry, putEntry, ENTRIES_OFF, ENTRY_SIZE]
    rw [getU64_putU32 _ (by omega), getU64_putU64_of_disjoint _ (by omega),
      getU64_putU32 _ (by omega), getU64_blit _ (by omega)]
  · simp only [getEntry, putEntry, ENTRIES_OFF, ENTRY_SIZE]
    rw [getU32_putU32_of_disjoint _ (by omega), getU32_putU64 _ (by omega),
      getU32_putU32_of_disjoint _ (by omega), getU32_blit _ (by omega)]

theorem getU64_putEntries (cp : Checkpoint) (k : ℕ) {pos : ℕ} (h : pos + 8 ≤ ENTRIES_OFF) :
    getU64 (cp.putEntries k) pos = getU64 cp.header pos := by
  induction k with
  | zero => rfl
  | succ k ih => rw [putEntries, getU64_putEntry _ _ _ h, ih]

theorem getU32_putEntries (cp : Checkpoint) (k : ℕ) {pos : ℕ} (h : pos + 4 ≤ ENTRIES_OFF) :
    getU32 (cp.putEntries k) pos = getU32 cp.header pos := by
  induction k with
  | zero => rfl
  | succ k ih => rw [putEntries, getU32_putEntry _ _ _ h, ih]

theorem getEntry_putEntries (cp : Checkpoint) {k : ℕ} (hk : k ≤ MAX_FILES) {i : ℕ} (hi : i < k) :
    getEntry (cp.putEntries k) i = cp.files[i] := by
  induction k with
  | zero => omega
  | succ k ih =>
    rw [putEntries]
    rcases Nat.lt_succ_iff_lt_or_eq.mp hi with hlt | rfl
    · rw [getEntry_putEntry_of_lt _ _ hlt, ih (by omega) hlt]
    · rw [getEntry_putEntry_self _ _ (by omega), Vector.getElem?_eq_getElem (by omega),
        Option.getD_some]

theorem getEntry_seal (raw : Sector) {i : ℕ} (hi : i < MAX_FILES) :
    getEntry (sealSector raw) i = getEntry raw i := by
  have hm : MAX_FILES = 8 := rfl
  have hc : CRC_OFF = 508 := rfl
  have hn : MAX_NAME = 28 := rfl
  have hpos : ENTRIES_OFF + i * ENTRY_SIZE + 48 ≤ CRC_OFF := by
    simp only [ENTRIES_OFF, ENTRY_SIZE]
    omega
  apply FileEntry.ext
  · exact slice_seal _ (by omega)
  · exact getU32_seal _ (by omega)
  · exact getU64_seal _ (by omega)
  · exact getU32_seal _ (by omega)

/-- A well-formed checkpoint is read back field for field from the sector it was
written to. -/
theorem decode_encode {cp : Checkpoint} (h : cp.WF) : decode cp.encode = some cp := by
  have hc : CRC_OFF = 508 := rfl
  have ho : ENTRIES_OFF = 32 := rfl
  have hs : SECTOR_SIZE = 512 := rfl
  have hmagic : getU64 cp.encode 0 = CP_MAGIC := by
    rw [encode, getU64_seal _ (by omega), getU64_putEntries _ _ (by omega), header,
      getU64_putU32 _ (by omega), getU64_putU64_of_disjoint _ (by omega),
      getU64_putU64_of_disjoint _ (by omega), getU64_putU64 _ (by omega)]
  have hseq : getU64 cp.encode 8 = cp.seq := by
    rw [encode, getU64_seal _ (by omega), getU64_putEntries _ _ (by omega), header,
      getU64_putU32 _ (by omega), getU64_putU64_of_disjoint _ (by omega),
      getU64_putU64 _ (by omega)]
  have hhead : getU64 cp.encode 16 = cp.logHead := by
    rw [encode, getU64_seal _ (by omega), getU64_putEntries _ _ (by omega), header,
      getU64_putU32 _ (by omega), getU64_putU64 _ (by omega)]
  have hcount : (getU32 cp.encode 24).toNat = cp.count := by
    have hle := h.count_le
    unfold MAX_FILES at hle
    rw [encode, getU32_seal _ (by omega), getU32_putEntries _ _ (by omega), header,
      getU32_putU32 _ (by omega), UInt32.toNat_ofNat', Nat.mod_eq_of_lt (by omega)]
  have hintact : intact cp.encode = true := intact_seal _
  have hle := h.count_le
  have hfiles : (Vector.ofFn fun i : Fin MAX_FILES =>
      if i.val < cp.count then getEntry cp.encode i.val else FileEntry.empty) = cp.files := by
    ext1 i hi
    rw [Vector.getElem_ofFn]
    split_ifs with hlt
    · rw [encode, getEntry_seal _ hi, getEntry_putEntries _ hle hlt]
    · exact (h.empty i hi (by simpa using hlt)).symm
  unfold decode
  rw [hmagic, hintact, hcount, hseq, hhead, if_neg (by simp)]
  dsimp only
  rw [hfiles, if_neg (by omega)]

/-- Whatever decodes is well formed. -/
theorem decode_wf {raw : Sector} {cp : Checkpoint} (h : decode raw = some cp) : cp.WF := by
  unfold decode at h
  simp only at h
  split_ifs at h with h1 h2
  obtain rfl := Option.some.inj h
  refine ⟨by simpa using h2, fun i hi hle => ?_⟩
  simp only at hle ⊢
  rw [Vector.getElem_ofFn, if_neg (by simpa using hle)]

end Checkpoint

-- from here on a checkpoint sector is known by its round trip only
attribute [irreducible] Checkpoint.encode Checkpoint.decode

end JungeyOs.Jlfs
