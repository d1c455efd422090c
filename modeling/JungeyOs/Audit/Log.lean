import JungeyOs.Jlfs.OpsLemmas
import JungeyOs.Lib.HashChain

/-!
# The action log

Models of `kernel/src/audit.rs`, lines 29–200: the records, `init`, `append` and
`verify`. The one `LOG` of the kernel is passed along: a call takes the log as it
finds it and returns it as it leaves it. The clock is an argument of `append`.

Results:
* `init_eq`: `init` recovers the log from the records up to the first slot without a
  magic number.
* `appended`: everything an `append` can do.
* `verify_eq`: `verify` is the checker of the hash chain of the records on disk.
* `hashRecord_set_ne`: a record with one byte changed has another hash.
-/

namespace JungeyOs.Audit

open JungeyOs.Bytes JungeyOs.Jlfs Blk HashChain

/-! ## Constants (lines 29–48) -/

def RECORD_BYTES : ℕ := 128
def RECORDS_PER_SECTOR : UInt64 := 4
def NAME_BYTES : ℕ := 32
def DETAIL_BYTES : ℕ := 40
def MAGIC : UInt64 := 0x4A5F415544495430
def OFF_MAGIC : ℕ := 0
def OFF_SEQ : ℕ := 8
def OFF_PREV : ℕ := 16
def OFF_TICK : ℕ := 24
def OFF_ACTOR : ℕ := 32
def OFF_CAP : ℕ := 40
def OFF_NAME : ℕ := 48
def OFF_DETAIL : ℕ := 48 + NAME_BYTES
def OFF_HASH : ℕ := RECORD_BYTES - 8

/-! ## Records -/

/-- `[u8; RECORD_BYTES]`. -/
abbrev Record := Vector UInt8 RECORD_BYTES

/-- The loop body of `hash_record` (lines 74–77): one byte of FNV-1a. -/
def hashByte (h : UInt64) (b : UInt8) : UInt64 := (h ^^^ b.toUInt64) * 0x100000001B3

/-- `hash_record` (lines 72–79). -/
def hashRecord (record : Record) (prev : UInt64) : UInt64 :=
  (record.toList.take OFF_HASH).foldl hashByte (prev ^^^ 0xCBF29CE484222325)

/-- What a caller of `append` says: who did it, when, under which capability, what
and to what. -/
structure Entry where
  tick : UInt64
  actor : String
  cap : UInt64
  name : String
  detail : String

/-- `append` up to the hash (lines 132–143). -/
def Entry.body (e : Entry) (seq prev : UInt64) : Record :=
  let record := putU64 (Vector.replicate RECORD_BYTES 0) OFF_MAGIC MAGIC
  let record := putU64 record OFF_SEQ seq
  let record := putU64 record OFF_PREV prev
  let record := putU64 record OFF_TICK e.tick
  let record := putU64 record OFF_ACTOR (UInt64.ofNat e.actor.utf8ByteSize)
  let record := putU64 record OFF_CAP e.cap
  let record := blit record OFF_NAME ((asBytes e.name).take NAME_BYTES).toArray.toVector
  blit record OFF_DETAIL ((asBytes e.detail).take DETAIL_BYTES).toArray.toVector

/-- The record that `append` writes (lines 132–145). -/
def Entry.record (e : Entry) (seq prev : UInt64) : Record :=
  putU64 (e.body seq prev) OFF_HASH (hashRecord (e.body seq prev) prev)

/-- Slot `slot` of a sector. -/
def recordIn (buf : Sector) (slot : ℕ) : Record := slice buf (slot * RECORD_BYTES) RECORD_BYTES

/-! ## The log (lines 50–161) -/

/-- `Log` (lines 50–56). -/
structure Log where
  start : UInt64
  sectors : UInt64
  nextSeq : UInt64
  lastHash : UInt64
  ready : Bool

/-- `LOG` before `init` (lines 58–59). -/
def Log.off : Log := ⟨0, 0, 0, 0, false⟩

/-- `seq` and `last_hash` of `init` (lines 85–86). -/
structure Tip where
  seq : UInt64
  lastHash : UInt64

/-- The loop of `init` over one sector (lines 94–101), with `fuel` slots left; the
flag says that it went to the end. -/
def scanSector (buf : Sector) : (fuel r : ℕ) → Tip → Blk (Tip × Bool)
  | 0, _, tip => pure (tip, true)
  | fuel + 1, r, tip =>
    let record := recordIn buf r
    if getU64 record OFF_MAGIC ≠ MAGIC then pure (tip, false)
    else do
      let seq ← Blk.addU64 (getU64 record OFF_SEQ) 1
      scanSector buf fuel (r + 1) ⟨seq, getU64 record OFF_HASH⟩

/-- The loop of `init` over the sectors (lines 90–102), with `fuel` sectors left. -/
def scan (start : UInt64) : (fuel s : ℕ) → Tip → Blk Tip
  | 0, _, tip => pure tip
  | fuel + 1, s, tip => do
    let pos ← Blk.addU64 start (UInt64.ofNat s)
    match ← Blk.attempt (Blk.readSector pos.toNat) with
    | .error _ => pure tip
    | .ok buf => do
      let (tip, more) ← scanSector buf RECORDS_PER_SECTOR.toNat 0 tip
      if more then scan start fuel (s + 1) tip else pure tip

/-- `init` (lines 84–110). -/
def init (start sectors : UInt64) : Blk Log := do
  let capacity ← Blk.mulU64 sectors RECORDS_PER_SECTOR
  let tip ← scan start sectors.toNat 0 ⟨0, 0⟩
  pure { start := start, sectors := sectors, nextSeq := min tip.seq capacity,
         lastHash := tip.lastHash, ready := true }

/-- `append` (lines 122–161): the sequence number it returns, and the log. -/
def append (log : Log) (e : Entry) : Blk (UInt64 × Log) :=
  if log.ready = false then Blk.fail "no audit log"
  else do
    let seq := log.nextSeq
    let capacity ← Blk.mulU64 log.sectors RECORDS_PER_SECTOR
    if seq ≥ capacity then Blk.fail "audit log is full"
    else do
      let record := e.record seq log.lastHash
      let sector ← Blk.addU64 log.start (seq / RECORDS_PER_SECTOR)
      let slot := (seq % RECORDS_PER_SECTOR).toNat
      let buf ← Blk.readSector sector.toNat
      Blk.writeSector sector.toNat (blit buf (slot * RECORD_BYTES) record)
      let next ← Blk.addU64 seq 1
      pure (seq, { log with nextSeq := next, lastHash := hashRecord (e.body seq log.lastHash) log.lastHash })

/-! ## Verification (lines 163–200) -/

/-- `Verified` (lines 163–167). -/
structure Verified where
  records : ℕ
  firstBad : Option ℕ
  deriving DecidableEq

/-- The three checks of `verify` (lines 189–192). -/
def badRecord (record : Record) (prev : UInt64) : Bool :=
  getU64 record OFF_MAGIC != MAGIC || getU64 record OFF_PREV != prev ||
    hashRecord record prev != getU64 record OFF_HASH

/-- `buf` with the sector of record `seq` in it (lines 182–184): the first record of a
sector has it read. -/
def fetch (sector : UInt64) (seq : ℕ) (buf : Sector) : Blk (Except String Sector) :=
  if seq % 4 = 0 then Blk.attempt (Blk.readSector sector.toNat) else pure (.ok buf)

/-- The loop of `verify` (lines 179–198), with `fuel` records left. -/
def verifyLoop (start : UInt64) : (fuel seq : ℕ) → UInt64 → Sector → (checked : ℕ) → Blk Verified
  | 0, _, _, _, checked => pure ⟨checked, none⟩
  | fuel + 1, seq, prev, buf, checked => do
    let sector ← Blk.addU64 start (UInt64.ofNat (seq / 4))
    match ← fetch sector seq buf with
    | .error _ => pure ⟨checked, some seq⟩
    | .ok buf =>
      let record := recordIn buf (seq % 4)
      if badRecord record prev then pure ⟨checked, some seq⟩
      else verifyLoop start fuel (seq + 1) (getU64 record OFF_HASH) buf (checked + 1)

/-- `verify` (lines 170–200). -/
def verify (log : Log) : Blk Verified :=
  verifyLoop log.start log.nextSeq.toNat 0 0 blankSector 0

/-! ## Records as links of a chain -/

/-- What `verify` looks at in a record. -/
def links : Format Record UInt64 where
  isRecord record := getU64 record OFF_MAGIC == MAGIC
  prev record := getU64 record OFF_PREV
  digest := hashRecord
  stored record := getU64 record OFF_HASH

theorem isRecord_iff {record : Record} :
    links.isRecord record = true ↔ getU64 record OFF_MAGIC = MAGIC := by
  simp [links]

theorem follows_iff {record : Record} {prev : UInt64} :
    links.Follows prev record ↔ getU64 record OFF_MAGIC = MAGIC ∧ getU64 record OFF_PREV = prev ∧
      hashRecord record prev = getU64 record OFF_HASH := by
  simp [Format.Follows, links]

theorem badRecord_eq_false {record : Record} {prev : UInt64} :
    badRecord record prev = false ↔ links.Follows prev record := by
  rw [follows_iff]
  simp [badRecord, and_assoc]

section Fields

variable (e : Entry) (seq prev : UInt64)

theorem hashRecord_congr {r r' : Record} (h : slice r 0 OFF_HASH = slice r' 0 OFF_HASH)
    (prev : UInt64) : hashRecord r prev = hashRecord r' prev := by
  have htake : ∀ r : Record, r.toList.take OFF_HASH = (slice r 0 OFF_HASH).toList := by
    intro r
    have hlen : r.toList.length = RECORD_BYTES := Vector.length_toList
    refine List.ext_getElem ?_ fun i h1 h2 => ?_
    · rw [List.length_take, hlen, Vector.length_toList]
      rfl
    have hi : i < OFF_HASH := by simpa using h2
    have hlt : 0 + i < RECORD_BYTES := by
      unfold OFF_HASH at hi
      omega
    rw [List.getElem_take, Vector.getElem_toList, Vector.getElem_toList, getElem_slice _ _ hi,
      Vector.getElem?_eq_getElem hlt, Option.getD_some]
    simp
  rw [hashRecord, hashRecord, htake, htake, h]

theorem hashRecord_record : hashRecord (e.record seq prev) prev = hashRecord (e.body seq prev) prev :=
  hashRecord_congr (slice_blit_of_disjoint _ _ _ _ (.inl (by decide))) prev

theorem getU64_hash : getU64 (e.record seq prev) OFF_HASH = hashRecord (e.body seq prev) prev :=
  getU64_putU64 _ (by decide)

/-- The header fields lie below the texts and the hash. -/
theorem getU64_header {pos : ℕ} (h : pos + 8 ≤ OFF_NAME) :
    getU64 (e.record seq prev) pos = getU64 (putU64 (putU64 (putU64 (putU64 (putU64 (putU64
      (Vector.replicate RECORD_BYTES 0) OFF_MAGIC MAGIC) OFF_SEQ seq) OFF_PREV prev) OFF_TICK e.tick)
      OFF_ACTOR (UInt64.ofNat e.actor.utf8ByteSize)) OFF_CAP e.cap) pos := by
  have h1 : OFF_NAME = 48 := rfl
  have h2 : OFF_DETAIL = 80 := rfl
  have h3 : OFF_HASH = 120 := rfl
  unfold Entry.record Entry.body
  rw [getU64_putU64_of_disjoint _ (by omega), getU64_blit _ (by omega), getU64_blit _ (by omega)]

theorem getU64_magic : getU64 (e.record seq prev) OFF_MAGIC = MAGIC := by
  rw [getU64_header _ _ _ (by decide)]
  iterate 5 rw [getU64_putU64_of_disjoint _ (by decide)]
  exact getU64_putU64 _ (by decide)

theorem getU64_seq : getU64 (e.record seq prev) OFF_SEQ = seq := by
  rw [getU64_header _ _ _ (by decide)]
  iterate 4 rw [getU64_putU64_of_disjoint _ (by decide)]
  exact getU64_putU64 _ (by decide)

theorem getU64_prev : getU64 (e.record seq prev) OFF_PREV = prev := by
  rw [getU64_header _ _ _ (by decide)]
  iterate 3 rw [getU64_putU64_of_disjoint _ (by decide)]
  exact getU64_putU64 _ (by decide)

/-- A record that `append` makes follows the one whose hash it was given. -/
theorem follows_record : links.Follows prev (e.record seq prev) := by
  refine follows_iff.mpr ⟨getU64_magic e seq prev, getU64_prev e seq prev, ?_⟩
  rw [hashRecord_record, getU64_hash]

end Fields

/-! ### One byte of a record -/

theorem injective_hashByte (b : UInt8) : Function.Injective (hashByte · b) := by
  -- the multiplier is odd
  have hinv : (0x100000001B3 : UInt64) * 0xCE965057AFF6957B = 1 := by decide
  intro h h' heq
  have hmul := congrArg (· * 0xCE965057AFF6957B) heq
  simp only [hashByte, UInt64.mul_assoc, hinv, UInt64.mul_one] at hmul
  have hxor := congrArg (· ^^^ b.toUInt64) hmul
  simpa [UInt64.xor_assoc] using hxor

theorem injective_hashByte_right (h : UInt64) : Function.Injective (hashByte h) := by
  have hinv : (0x100000001B3 : UInt64) * 0xCE965057AFF6957B = 1 := by decide
  intro b b' heq
  have hmul := congrArg (· * 0xCE965057AFF6957B) heq
  simp only [hashByte, UInt64.mul_assoc, hinv, UInt64.mul_one] at hmul
  have hxor := congrArg (h ^^^ ·) hmul
  simp only [← UInt64.xor_assoc, UInt64.xor_self, UInt64.zero_xor] at hxor
  exact UInt8.toNat_inj.mp (by simpa using congrArg UInt64.toNat hxor)

/-- A record with one byte below the hash changed has another hash. -/
theorem hashRecord_set_ne {record : Record} {pos : ℕ} (hpos : pos < OFF_HASH) {b : UInt8}
    (hb : record[pos]? ≠ some b) (prev : UInt64) :
    hashRecord (record.setIfInBounds pos b) prev ≠ hashRecord record prev := by
  have hlen : (record.toList.take OFF_HASH).length = OFF_HASH := by
    rw [List.length_take, Vector.length_toList]
    rfl
  have hset : (record.setIfInBounds pos b).toList.take OFF_HASH =
      (record.toList.take OFF_HASH).set pos b := by
    rw [Vector.toList_setIfInBounds, List.take_set]
  rw [hashRecord, hashRecord, hset]
  have hi : pos < (record.toList.take OFF_HASH).length := by rwa [hlen]
  refine foldl_set_ne injective_hashByte injective_hashByte_right hi (fun heq => hb ?_) _
  rw [List.getElem_take, Vector.getElem_toList] at heq
  rw [Vector.getElem?_eq_getElem (hpos.trans (by decide)), heq]

/-! ## Records on the disk -/

/-- Slot `k` of the log that starts at sector `start`. -/
def slotAt (disk : Disk) (start k : ℕ) : Record := recordIn (disk (start + k / 4)) (k % 4)

/-- The disk with this record in slot `k`. -/
def putRecord (disk : Disk) (start k : ℕ) (record : Record) : Disk :=
  Function.update disk (start + k / 4)
    (blit (disk (start + k / 4)) (k % 4 * RECORD_BYTES) record)

theorem slotAt_putRecord_self (disk : Disk) (start k : ℕ) (record : Record) :
    slotAt (putRecord disk start k record) start k = record := by
  have hend : k % 4 * RECORD_BYTES + RECORD_BYTES ≤ SECTOR_SIZE := by
    unfold RECORD_BYTES SECTOR_SIZE
    omega
  rw [slotAt, putRecord, Function.update_self, recordIn, slice_blit_self _ _ _ hend]

theorem slotAt_putRecord_of_ne (disk : Disk) (start : ℕ) {k j : ℕ} (record : Record) (h : j ≠ k) :
    slotAt (putRecord disk start k record) start j = slotAt disk start j := by
  unfold slotAt putRecord
  by_cases hsec : j / 4 = k / 4
  · have hdisj : j % 4 * RECORD_BYTES + RECORD_BYTES ≤ k % 4 * RECORD_BYTES ∨
        k % 4 * RECORD_BYTES + RECORD_BYTES ≤ j % 4 * RECORD_BYTES := by
      unfold RECORD_BYTES
      omega
    rw [hsec, Function.update_self, recordIn, recordIn, slice_blit_of_disjoint _ _ _ _ hdisj]
  · rw [Function.update_of_ne (by omega)]

/-- The sectors of the log can be read, and their numbers and slots fit. -/
structure Region (start sectors : UInt64) (d : Device) : Prop where
  reads : d.reads = []
  capacity : start.toNat + sectors.toNat ≤ d.capacity
  fits : d.capacity < 2 ^ 64
  room : sectors.toNat * 4 < 2 ^ 64

section Disk

variable {start sectors : UInt64} {d : Device}

theorem Region.readSector (h : Region start sectors d) {s : ℕ} (hs : s < sectors.toNat) :
    ∃ pos : UInt64, addU64 start (UInt64.ofNat s) d = (.ok pos, d) ∧
      pos.toNat = start.toNat + s ∧
      Blk.readSector pos.toNat d = (.ok (d.disk (start.toNat + s)), d) := by
  have hcap := h.capacity
  have hfits := h.fits
  have hofNat : (UInt64.ofNat s).toNat = s := by
    rw [UInt64.toNat_ofNat']
    omega
  obtain ⟨pos, hpos, hsum⟩ := addU64_of_lt (a := start) (b := UInt64.ofNat s) (by omega) d
  have heq : pos.toNat = start.toNat + s := by omega
  exact ⟨pos, hpos, heq, heq ▸ readSector_of_healthy h.reads (by omega)⟩

/-! ### What `init` finds -/

/-- What `init` knows after `m` records. -/
def tipAt (disk : Disk) (start : ℕ) : ℕ → Tip
  | 0 => ⟨0, 0⟩
  | m + 1 => ⟨getU64 (slotAt disk start m) OFF_SEQ + 1, getU64 (slotAt disk start m) OFF_HASH⟩

/-- The first `m` slots hold records whose number can be counted on from. -/
structure Counted (disk : Disk) (start sectors m : ℕ) : Prop where
  le : m ≤ sectors * 4
  magic : ∀ k < m, getU64 (slotAt disk start k) OFF_MAGIC = MAGIC
  seq : ∀ k < m, (getU64 (slotAt disk start k) OFF_SEQ).toNat + 1 < 2 ^ 64

/-- They are all there are. -/
structure Recorded (disk : Disk) (start sectors m : ℕ) : Prop extends
    Counted disk start sectors m where
  stop : m < sectors * 4 → getU64 (slotAt disk start m) OFF_MAGIC ≠ MAGIC

/-- The slot after `m` holds a record whose number cannot be counted on from. -/
structure Overflows (disk : Disk) (start sectors m : ℕ) : Prop extends
    Counted disk start sectors m where
  lt : m < sectors * 4
  nextMagic : getU64 (slotAt disk start m) OFF_MAGIC = MAGIC
  nextSeq : 2 ^ 64 ≤ (getU64 (slotAt disk start m) OFF_SEQ).toNat + 1

theorem recordIn_slotAt (disk : Disk) (start : ℕ) {s r : ℕ} (hr : r < 4) :
    recordIn (disk (start + s)) r = slotAt disk start (4 * s + r) := by
  have h1 : (4 * s + r) / 4 = s := by omega
  have h2 : (4 * s + r) % 4 = r := by omega
  rw [slotAt, h1, h2]

theorem scanSector_succ (buf : Sector) (fuel r : ℕ) (tip : Tip) :
    scanSector buf (fuel + 1) r tip =
      if getU64 (recordIn buf r) OFF_MAGIC ≠ MAGIC then pure (tip, false)
      else Blk.addU64 (getU64 (recordIn buf r) OFF_SEQ) 1 >>= fun seq =>
        scanSector buf fuel (r + 1) ⟨seq, getU64 (recordIn buf r) OFF_HASH⟩ := rfl

/-- One sector of the log is read and passed over, or ends the loop. -/
theorem Region.scan_succ (hd : Region start sectors d) {s : ℕ} (hs : s < sectors.toNat) (fuel : ℕ)
    (tip : Tip) :
    scan start (fuel + 1) s tip d = (scanSector (d.disk (start.toNat + s)) 4 0 tip >>= fun r =>
      if r.2 then scan start fuel (s + 1) r.1 else pure r.1) d := by
  have h4 : RECORDS_PER_SECTOR.toNat = 4 := rfl
  obtain ⟨pos, hpos, -, hread⟩ := hd.readSector hs
  rw [scan, bind_of_ok hpos, bind_of_ok (attempt_of_ok hread)]
  dsimp only
  rw [h4]

/-- The loop over one sector passes over the records that are counted. -/
theorem Counted.scanSector_eq {disk : Disk} {start sectors m s : ℕ}
    (h : Counted disk start sectors m) (d : Device) {u r t : ℕ} (hr : r + t + u = 4)
    (hm : 4 * s + r + t ≤ m) :
    scanSector (disk (start + s)) (t + u) r (tipAt disk start (4 * s + r)) d =
      scanSector (disk (start + s)) u (r + t) (tipAt disk start (4 * s + r + t)) d := by
  induction t generalizing r with
  | zero => rw [Nat.zero_add, Nat.add_zero, Nat.add_zero]
  | succ t ih =>
    have hnext : addU64 (getU64 (slotAt disk start (4 * s + r)) OFF_SEQ) 1 d =
        (.ok (tipAt disk start (4 * s + r + 1)).seq, d) := by
      unfold addU64
      exact congrFun (if_pos (h.seq _ (by omega))) d
    have harith : t + 1 + u = t + u + 1 := by omega
    rw [harith, scanSector_succ, recordIn_slotAt _ _ (by omega), if_neg (not_not.mpr (h.magic _ (by omega))),
      bind_of_ok hnext]
    refine (ih (r := r + 1) (by omega) (by omega)).trans ?_
    rw [Nat.add_right_comm r 1 t, Nat.add_assoc r t 1, ← Nat.add_assoc (4 * s) r 1,
      Nat.add_right_comm (4 * s + r) 1 t, Nat.add_assoc (4 * s + r) t 1]

/-- The loop over the sectors passes over those that are full of records. -/
theorem Counted.scan_eq {m : ℕ} (h : Counted d.disk start.toNat sectors.toNat m)
    (hd : Region start sectors d) {u s t : ℕ} (hs : s + t + u = sectors.toNat)
    (hm : 4 * (s + t) ≤ m) :
    scan start (t + u) s (tipAt d.disk start.toNat (4 * s)) d =
      scan start u (s + t) (tipAt d.disk start.toNat (4 * (s + t))) d := by
  induction t generalizing s with
  | zero => rw [Nat.zero_add, Nat.add_zero]
  | succ t ih =>
    have hsector : scanSector (d.disk (start.toNat + s)) 4 0 (tipAt d.disk start.toNat (4 * s)) d =
        (.ok (tipAt d.disk start.toNat (4 * s + 4), true), d) :=
      h.scanSector_eq d (u := 0) (r := 0) (t := 4) rfl (by omega)
    have harith : t + 1 + u = t + u + 1 := by omega
    rw [harith, hd.scan_succ (by omega), bind_of_ok hsector]
    refine (ih (s := s + 1) (by omega) (by omega)).trans ?_
    rw [Nat.add_right_comm s 1 t, Nat.add_assoc s t 1]

/-- The sector in which the log of `m` records ends. -/
theorem Counted.scan_last {m : ℕ} (h : Counted d.disk start.toNat sectors.toNat m)
    (hd : Region start sectors d) (hlt : m < sectors.toNat * 4) :
    ∃ fuel, scan start sectors.toNat 0 ⟨0, 0⟩ d =
      (scanSector (d.disk (start.toNat + m / 4)) (3 - m % 4 + 1) (m % 4)
        (tipAt d.disk start.toNat m) >>= fun r =>
          if r.2 then scan start fuel (m / 4 + 1) r.1 else pure r.1) d := by
  have hfull := h.scan_eq hd (s := 0) (t := m / 4) (u := sectors.toNat - m / 4 - 1 + 1) (by omega)
    (by omega)
  have hsum : m / 4 + (sectors.toNat - m / 4 - 1 + 1) = sectors.toNat := by omega
  have hpart := h.scanSector_eq (s := m / 4) d (r := 0) (t := m % 4) (u := 3 - m % 4 + 1) (by omega)
    (by omega)
  have hslot : 4 * (m / 4) + m % 4 = m := by omega
  have hsize : m % 4 + (3 - m % 4 + 1) = 4 := by omega
  rw [hsum, Nat.zero_add] at hfull
  rw [hsize, Nat.zero_add, Nat.add_zero, hslot] at hpart
  refine ⟨sectors.toNat - m / 4 - 1, hfull.trans ?_⟩
  rw [hd.scan_succ (by omega), bind_apply, hpart, bind_apply]

/-- The loop over the sectors finds the end of the log. -/
theorem Recorded.scan_eq {m : ℕ} (h : Recorded d.disk start.toNat sectors.toNat m)
    (hd : Region start sectors d) :
    scan start sectors.toNat 0 ⟨0, 0⟩ d = (.ok (tipAt d.disk start.toNat m), d) := by
  have hle := h.le
  by_cases hlt : m < sectors.toNat * 4
  · obtain ⟨fuel, hscan⟩ := h.toCounted.scan_last hd hlt
    have hslot : recordIn (d.disk (start.toNat + m / 4)) (m % 4) = slotAt d.disk start.toNat m := rfl
    rw [hscan, scanSector_succ, hslot, if_pos (h.stop hlt)]
    rfl
  · have hfull := h.toCounted.scan_eq hd (s := 0) (t := sectors.toNat) (u := 0) (by omega) (by omega)
    have heq : 4 * (0 + sectors.toNat) = m := by omega
    rw [heq, Nat.add_zero] at hfull
    exact hfull

/-- The loop over the sectors panics at a number that cannot be counted on from. -/
theorem Overflows.scan_eq {m : ℕ} (h : Overflows d.disk start.toNat sectors.toNat m)
    (hd : Region start sectors d) :
    scan start sectors.toNat 0 ⟨0, 0⟩ d = (.halted .panic, d) := by
  obtain ⟨fuel, hscan⟩ := h.toCounted.scan_last hd h.lt
  have hslot : recordIn (d.disk (start.toNat + m / 4)) (m % 4) = slotAt d.disk start.toNat m := rfl
  have hone : (1 : UInt64).toNat = 1 := rfl
  have hpanic : addU64 (getU64 (slotAt d.disk start.toNat m) OFF_SEQ) 1 d = (.halted .panic, d) := by
    have hge := h.nextSeq
    unfold addU64
    exact congrFun (if_neg (by omega)) d
  rw [hscan, scanSector_succ, hslot, if_neg (not_not.mpr h.nextMagic), bind_of_halted]
  exact bind_of_halted hpanic

/-- `init` recovers the log from the records up to the first slot without a magic
number. -/
theorem init_eq {m : ℕ} (h : Recorded d.disk start.toNat sectors.toNat m)
    (hd : Region start sectors d) :
    ∃ capacity : UInt64, capacity.toNat = sectors.toNat * 4 ∧
      init start sectors d = (.ok
        { start := start, sectors := sectors,
          nextSeq := min (tipAt d.disk start.toNat m).seq capacity,
          lastHash := (tipAt d.disk start.toNat m).lastHash, ready := true }, d) := by
  obtain ⟨capacity, hcap, hmul⟩ := mulU64_of_lt (a := sectors) (b := RECORDS_PER_SECTOR) hd.room d
  have hscan := h.scan_eq hd
  refine ⟨capacity, hmul, ?_⟩
  unfold init
  rw [bind_of_ok hcap]
  exact bind_of_ok hscan

/-- `init` panics at a number that cannot be counted on from. -/
theorem Overflows.init_eq {m : ℕ} (h : Overflows d.disk start.toNat sectors.toNat m)
    (hd : Region start sectors d) : init start sectors d = (.halted .panic, d) := by
  obtain ⟨capacity, hcap, -⟩ := mulU64_of_lt (a := sectors) (b := RECORDS_PER_SECTOR) hd.room d
  unfold init
  rw [bind_of_ok hcap]
  exact bind_of_halted (h.scan_eq hd)

/-! ### What `append` does -/

/-- The disk with the next record of the log in its slot. -/
def Log.put (log : Log) (e : Entry) (disk : Disk) : Disk :=
  putRecord disk log.start.toNat log.nextSeq.toNat (e.record log.nextSeq log.lastHash)

/-- `log'` is `log` with one more record counted. -/
structure Log.Next (log : Log) (e : Entry) (log' : Log) : Prop where
  start : log'.start = log.start
  sectors : log'.sectors = log.sectors
  ready : log'.ready = true
  nextSeq : log'.nextSeq.toNat = log.nextSeq.toNat + 1
  lastHash : log'.lastHash = hashRecord (e.body log.nextSeq log.lastHash) log.lastHash

/-- Everything an `append` can do: it changes nothing, or it puts its record into the
next slot; and when it returns `Ok` it did the latter and counted it. -/
structure Appended (log : Log) (e : Entry) (d : Device) (r : Exit (UInt64 × Log)) (d' : Device) :
    Prop where
  capacity : d'.capacity = d.capacity
  disk : d'.disk = d.disk ∨ d'.disk = log.put e d.disk
  ok : ∀ seq log', r = .ok (seq, log') →
    seq = log.nextSeq ∧ log.Next e log' ∧ d'.disk = log.put e d.disk

theorem Appended.refused {log : Log} {e : Entry} {r : Exit (UInt64 × Log)} {d d' : Device}
    (hcap : d'.capacity = d.capacity) (hdisk : d'.disk = d.disk) (hr : ∀ a, r ≠ .ok a) :
    Appended log e d r d' :=
  ⟨hcap, .inl hdisk, fun _ _ h => absurd h (hr _)⟩

theorem appended (log : Log) (e : Entry) (d : Device) :
    Appended log e d (append log e d).1 (append log e d).2 := by
  unfold append
  dsimp only
  split_ifs with hready
  · exact .refused rfl rfl (by simp)
  rcases mulU64_cases log.sectors RECORDS_PER_SECTOR d with ⟨capacity, hmul, -⟩ | ⟨hmul, -⟩
  swap
  · rw [bind_of_halted hmul]
    exact .refused rfl rfl (by simp)
  rw [bind_of_ok hmul]
  split_ifs with hfull
  · exact .refused rfl rfl (by simp)
  rcases addU64_cases log.start (log.nextSeq / RECORDS_PER_SECTOR) d with
    ⟨sector, hsector, hsum⟩ | ⟨hsector, -⟩
  swap
  · rw [bind_of_halted hsector]
    exact .refused rfl rfl (by simp)
  rw [bind_of_ok hsector]
  rcases readSector_cases sector.toNat d with ⟨hread, -⟩ | ⟨hread, -⟩
  swap
  · rw [bind_of_err hread]
    exact .refused rfl rfl (by simp)
  rw [bind_of_ok hread]
  have hput : Function.update d.disk sector.toNat (blit (d.disk sector.toNat)
      ((log.nextSeq % RECORDS_PER_SECTOR).toNat * RECORD_BYTES)
      (e.record log.nextSeq log.lastHash)) = log.put e d.disk := by
    have h4 : RECORDS_PER_SECTOR.toNat = 4 := rfl
    have heq : sector.toNat = log.start.toNat + log.nextSeq.toNat / 4 := by
      rw [hsum, UInt64.toNat_div, h4]
    rw [Log.put, putRecord, UInt64.toNat_mod, h4, heq]
  -- from here on the sector that is written is known by `hput` only
  generalize blit (d.disk sector.toNat) ((log.nextSeq % RECORDS_PER_SECTOR).toNat * RECORD_BYTES)
    (e.record log.nextSeq log.lastHash) = data at hput ⊢
  rcases writeSector_cases sector.toNat data { d with reads := d.reads.tail } with
    ⟨hwrite, -⟩ | ⟨x, hx, hwrite⟩
  · rw [bind_of_ok hwrite]
    rcases addU64_cases log.nextSeq 1 ({ d with reads := d.reads.tail, writes := d.writes.tail }.store
        sector.toNat data) with ⟨next, hnext, hsum'⟩ | ⟨hnext, -⟩
    · rw [bind_of_ok hnext, pure_apply]
      refine ⟨rfl, .inr hput, fun seq log' h => ?_⟩
      dsimp only at h
      obtain ⟨rfl, rfl⟩ := Prod.mk.inj (Exit.ok.inj h)
      have hone : (1 : UInt64).toNat = 1 := rfl
      rw [hone] at hsum'
      refine ⟨rfl, ⟨rfl, rfl, by simpa using hready, hsum', ?_⟩, hput⟩
      dsimp only
    · rw [bind_of_halted hnext]
      exact ⟨rfl, .inr hput, fun _ _ h => by cases h⟩
  · rcases hx with rfl | rfl <;> rcases hwrite with hwrite | ⟨hwrite, -⟩
    · rw [bind_of_err hwrite]
      exact .refused rfl rfl (by simp)
    · rw [bind_of_err hwrite]
      exact ⟨rfl, .inr hput, fun _ _ h => by cases h⟩
    · rw [bind_of_halted hwrite]
      exact .refused rfl rfl (by simp)
    · rw [bind_of_halted hwrite]
      exact ⟨rfl, .inr hput, fun _ _ h => by cases h⟩

/-- A log that is not ready or full takes no record. -/
theorem append_refused {log : Log} (h : log.ready = false ∨ log.sectors.toNat * 4 ≤ log.nextSeq.toNat)
    (e : Entry) (d : Device) : ∃ r, append log e d = (r, d) ∧ ∀ a, r ≠ .ok a := by
  have h4 : RECORDS_PER_SECTOR.toNat = 4 := rfl
  unfold Audit.append
  dsimp only
  split_ifs with hready
  · exact ⟨_, rfl, by simp⟩
  rcases mulU64_cases log.sectors RECORDS_PER_SECTOR d with ⟨capacity, hmul, hprod⟩ | ⟨hmul, -⟩
  · rw [h4] at hprod
    have hfull := h.resolve_left hready
    rw [bind_of_ok hmul, if_pos (UInt64.le_iff_toNat_le.mpr (by omega))]
    exact ⟨_, rfl, by simp⟩
  · rw [bind_of_halted hmul]
    exact ⟨_, rfl, by simp⟩

/-- A log that is ready and not full takes a record. -/
theorem Region.append {log : Log} (hd : Region log.start log.sectors d) (hw : d.writes = [])
    (hready : log.ready = true) (hlt : log.nextSeq.toNat < log.sectors.toNat * 4) (e : Entry) :
    ∃ log' d', append log e d = (.ok (log.nextSeq, log'), d') := by
  have h4 : RECORDS_PER_SECTOR.toNat = 4 := rfl
  have hone : (1 : UInt64).toNat = 1 := rfl
  have hcap := hd.capacity
  have hfits := hd.fits
  have hroom := hd.room
  obtain ⟨capacity, hmul, hprod⟩ := mulU64_of_lt (a := log.sectors) (b := RECORDS_PER_SECTOR)
    hd.room d
  rw [h4] at hprod
  have hdiv : (log.nextSeq / RECORDS_PER_SECTOR).toNat = log.nextSeq.toNat / 4 := by
    rw [UInt64.toNat_div, h4]
  obtain ⟨sector, hsector, hsum⟩ := addU64_of_lt (a := log.start)
    (b := log.nextSeq / RECORDS_PER_SECTOR) (by omega) d
  have hread := @readSector_of_healthy sector.toNat d hd.reads (by omega)
  unfold Audit.append
  dsimp only
  rw [if_neg (by simp [hready]), bind_of_ok hmul,
    if_neg (fun hge => by have := UInt64.le_iff_toNat_le.mp hge; omega), bind_of_ok hsector,
    bind_of_ok hread]
  generalize blit (d.disk sector.toNat) ((log.nextSeq % RECORDS_PER_SECTOR).toNat * RECORD_BYTES)
    (e.record log.nextSeq log.lastHash) = data
  obtain ⟨next, hnext, -⟩ := addU64_of_lt (a := log.nextSeq) (b := 1) (by omega)
    (d.store sector.toNat data)
  rw [bind_of_ok (writeSector_of_healthy data hw (by omega)), bind_of_ok hnext]
  exact ⟨_, _, rfl⟩

/-! ### What `verify` finds -/

/-- The records in the slots from `seq` on. -/
def slots (disk : Disk) (start seq n : ℕ) : List Record := (List.range' seq n).map (slotAt disk start)

theorem slots_succ (disk : Disk) (start seq n : ℕ) :
    slots disk start seq (n + 1) = slotAt disk start seq :: slots disk start (seq + 1) n := rfl

/-- The loop of `verify` is the checker of the hash chain. -/
theorem Region.verifyLoop (hd : Region start sectors d) {fuel seq : ℕ} {prev : UInt64}
    {buf : Sector} {checked : ℕ} (hle : seq + fuel ≤ sectors.toNat * 4)
    (hbuf : seq % 4 ≠ 0 → buf = d.disk (start.toNat + seq / 4)) :
    verifyLoop start fuel seq prev buf checked d =
      (.ok (match links.firstBad prev (slots d.disk start.toNat seq fuel) with
        | none => ⟨checked + fuel, none⟩
        | some i => ⟨checked + i, some (seq + i)⟩), d) := by
  induction fuel generalizing seq prev buf checked with
  | zero => rfl
  | succ fuel ih =>
    obtain ⟨pos, hpos, -, hread⟩ := hd.readSector (s := seq / 4) (by omega)
    have hget : fetch pos seq buf d = (.ok (.ok (d.disk (start.toNat + seq / 4))), d) := by
      unfold fetch
      by_cases h0 : seq % 4 = 0
      · rw [if_pos h0, attempt_of_ok hread]
      · rw [if_neg h0, hbuf h0]
        rfl
    unfold Audit.verifyLoop
    rw [bind_of_ok hpos, bind_of_ok hget, slots_succ, Format.firstBad]
    have hslot : recordIn (d.disk (start.toNat + seq / 4)) (seq % 4) =
        slotAt d.disk start.toNat seq := rfl
    dsimp only
    rw [hslot]
    by_cases hbad : badRecord (slotAt d.disk start.toNat seq) prev = true
    · have hnot : ¬links.Follows prev (slotAt d.disk start.toNat seq) := fun hf => by
        rw [badRecord_eq_false.mpr hf] at hbad
        cases hbad
      rw [if_pos hbad, if_neg hnot]
      rfl
    · have hf := badRecord_eq_false.mp (Bool.eq_false_of_not_eq_true hbad)
      rw [if_neg hbad, if_pos hf]
      have hstored : links.stored (slotAt d.disk start.toNat seq) =
          getU64 (slotAt d.disk start.toNat seq) OFF_HASH := rfl
      rw [hstored, ih (by omega) fun h0 => by rw [show (seq + 1) / 4 = seq / 4 by omega]]
      cases links.firstBad (getU64 (slotAt d.disk start.toNat seq) OFF_HASH)
          (slots d.disk start.toNat (seq + 1) fuel) with
      | none =>
        simp
        omega
      | some i =>
        simp
        omega

/-- `verify` is the checker of the hash chain of the records on disk. -/
theorem verify_eq {log : Log} (hd : Region log.start sectors d)
    (hle : log.nextSeq.toNat ≤ sectors.toNat * 4) :
    verify log d =
      (.ok (match links.firstBad 0 (slots d.disk log.start.toNat 0 log.nextSeq.toNat) with
        | none => ⟨log.nextSeq.toNat, none⟩
        | some i => ⟨i, some i⟩), d) := by
  have hle' : 0 + log.nextSeq.toNat ≤ sectors.toNat * 4 := by omega
  refine (hd.verifyLoop hle' (fun h => absurd rfl h)).trans ?_
  simp only [Nat.zero_add]

end Disk

/-- A cleared sector holds no record. -/
theorem not_magic_of_blank {disk : Disk} {start k : ℕ} (h : disk (start + k / 4) = blankSector) :
    getU64 (slotAt disk start k) OFF_MAGIC ≠ MAGIC := by
  rw [slotAt, recordIn, h, getU64_slice _ _ (by decide), getU64_blank]
  decide

/-! ## An intact log -/

/-- The first `n` slots hold a chain of numbered records. -/
structure Intact (disk : Disk) (start sectors n : ℕ) : Prop where
  le : n ≤ sectors * 4
  chain : links.Chain 0 (slots disk start 0 n)
  seq : ∀ k < n, (getU64 (slotAt disk start k) OFF_SEQ).toNat = k

section Intact

variable {disk disk' : Disk} {start sectors n : ℕ}

theorem length_slots (disk : Disk) (start seq n : ℕ) : (slots disk start seq n).length = n := by
  rw [slots, List.length_map, List.length_range']

theorem slots_concat (disk : Disk) (start n : ℕ) :
    slots disk start 0 (n + 1) = slots disk start 0 n ++ [slotAt disk start n] := by
  rw [slots, List.range'_concat, List.map_append, slots]
  simp

theorem slots_append (disk : Disk) (start seq m n : ℕ) :
    slots disk start seq (m + n) = slots disk start seq m ++ slots disk start (seq + m) n := by
  rw [slots, slots, slots, ← List.map_append, List.range'_append_1]

theorem slots_congr {seq : ℕ} (h : ∀ k, seq ≤ k → k < seq + n → slotAt disk' start k = slotAt disk start k) :
    slots disk' start seq n = slots disk start seq n := by
  refine List.map_congr_left fun k hk => ?_
  obtain ⟨h1, h2⟩ := List.mem_range'_1.mp hk
  exact h k h1 h2

theorem getElem_slots {k : ℕ} (hk : k < (slots disk start 0 n).length) :
    (slots disk start 0 n)[k] = slotAt disk start k := by
  simp [slots]

theorem mem_slots {k : ℕ} (hk : k < n) : slotAt disk start k ∈ slots disk start 0 n :=
  List.mem_map_of_mem (List.mem_range'_1.mpr ⟨k.zero_le, by omega⟩)

/-- The hash that `init` ends with is the one that the next record has to name. -/
theorem tipAt_lastHash (disk : Disk) (start n : ℕ) :
    (tipAt disk start n).lastHash = links.last 0 (slots disk start 0 n) := by
  cases n with
  | zero => rfl
  | succ n =>
    rw [slots_concat, Format.last_concat]
    rfl

theorem Intact.empty : Intact disk start sectors 0 :=
  ⟨Nat.zero_le _, trivial, fun k hk => absurd hk k.not_lt_zero⟩

theorem Intact.magic (h : Intact disk start sectors n) {k : ℕ} (hk : k < n) :
    getU64 (slotAt disk start k) OFF_MAGIC = MAGIC :=
  isRecord_iff.mp (Format.isRecord_of_chain h.chain (mem_slots hk))

theorem Intact.congr (h : Intact disk start sectors n)
    (hslot : ∀ k < n, slotAt disk' start k = slotAt disk start k) :
    Intact disk' start sectors n := by
  refine ⟨h.le, ?_, fun k hk => by rw [hslot k hk]; exact h.seq k hk⟩
  rw [slots_congr fun k _ hk => hslot k (by omega)]
  exact h.chain

/-- The beginning of an intact log is one. -/
theorem Intact.take (h : Intact disk start sectors n) {m : ℕ} (hm : m ≤ n) :
    Intact disk start sectors m := by
  induction n with
  | zero => rwa [Nat.le_zero.mp hm]
  | succ n ih =>
    rcases Nat.le_succ_iff.mp hm with hle | rfl
    · refine ih ⟨Nat.le_of_succ_le h.le, ?_, fun k hk => h.seq k (Nat.lt_succ_of_lt hk)⟩ hle
      have hchain := h.chain
      rw [slots_concat, Format.chain_concat] at hchain
      exact hchain.1
    · exact h

/-- Every record of an intact log follows the one before it. -/
theorem Intact.follows (h : Intact disk start sectors n) {k : ℕ} (hk : k < n) :
    links.Follows (links.last 0 (slots disk start 0 k)) (slotAt disk start k) := by
  have hchain := (h.take (m := k + 1) hk).chain
  rw [slots_concat, Format.chain_concat] at hchain
  exact hchain.2

theorem Intact.counted (h : Intact disk start sectors n) (hroom : sectors * 4 < 2 ^ 64) :
    Counted disk start sectors n := by
  have hle := h.le
  refine ⟨hle, fun k hk => h.magic hk, fun k hk => ?_⟩
  rw [h.seq k hk]
  omega

/-- An intact log that ends where its records end is recovered in full. -/
theorem Intact.recorded (h : Intact disk start sectors n) (hroom : sectors * 4 < 2 ^ 64)
    (hstop : n < sectors * 4 → getU64 (slotAt disk start n) OFF_MAGIC ≠ MAGIC) :
    Recorded disk start sectors n :=
  ⟨h.counted hroom, hstop⟩

theorem Intact.tipAt_seq (h : Intact disk start sectors n) (hroom : sectors * 4 < 2 ^ 64) :
    (tipAt disk start n).seq.toNat = n := by
  have hle := h.le
  have hone : (1 : UInt64).toNat = 1 := rfl
  cases n with
  | zero => rfl
  | succ n =>
    rw [tipAt, UInt64.toNat_add, h.seq n n.lt_succ_self, hone, Nat.mod_eq_of_lt (by omega)]

/-- `log` is where a log of `n` records on the disk leaves off. -/
structure Log.At (log : Log) (disk : Disk) (n : ℕ) : Prop where
  ready : log.ready = true
  nextSeq : log.nextSeq.toNat = n
  lastHash : log.lastHash = links.last 0 (slots disk log.start.toNat 0 n)

/-- `init` finds the end of an intact log. -/
theorem Intact.init {start sectors : UInt64} {d : Device} {n : ℕ}
    (h : Intact d.disk start.toNat sectors.toNat n) (hd : Region start sectors d)
    (hstop : n < sectors.toNat * 4 → getU64 (slotAt d.disk start.toNat n) OFF_MAGIC ≠ MAGIC) :
    ∃ log, init start sectors d = (.ok log, d) ∧ log.start = start ∧ log.sectors = sectors ∧
      log.At d.disk n := by
  have hle := h.le
  obtain ⟨capacity, hcap, hinit⟩ := init_eq (h.recorded hd.room hstop) hd
  have hseq := h.tipAt_seq hd.room
  have hseqle : (tipAt d.disk start.toNat n).seq ≤ capacity := UInt64.le_iff_toNat_le.mpr (by omega)
  have hmin : min (tipAt d.disk start.toNat n).seq capacity = (tipAt d.disk start.toNat n).seq :=
    if_pos hseqle
  rw [hmin] at hinit
  exact ⟨_, hinit, rfl, rfl, rfl, hseq, tipAt_lastHash _ _ _⟩

/-- An intact log is verified to its end. -/
theorem Intact.verify {log : Log} {d : Device} {n : ℕ}
    (h : Intact d.disk log.start.toNat log.sectors.toNat n) (hd : Region log.start log.sectors d)
    (hat : log.At d.disk n) : verify log d = (.ok ⟨n, none⟩, d) := by
  have hle := h.le
  rw [verify_eq hd (by rw [hat.nextSeq]; exact hle), hat.nextSeq,
    Format.firstBad_eq_none_iff.mpr h.chain]

/-- A record that names the last hash extends an intact log. -/
theorem Intact.extend (h : Intact disk start sectors n) (hlt : n < sectors * 4) {e : Entry}
    {seq : UInt64} (hseq : seq.toNat = n) {prev : UInt64}
    (hprev : prev = links.last 0 (slots disk start 0 n))
    (hslot : slotAt disk start n = e.record seq prev) : Intact disk start sectors (n + 1) := by
  refine ⟨hlt, ?_, fun k hk => ?_⟩
  · rw [slots_concat, Format.chain_concat, hslot, ← hprev]
    exact ⟨h.chain, follows_record e seq prev⟩
  · rcases Nat.lt_succ_iff_lt_or_eq.mp hk with hk | rfl
    · exact h.seq k hk
    · rw [hslot, getU64_seq, hseq]

theorem Intact.put (h : Intact disk start sectors n) (hlt : n < sectors * 4) (e : Entry)
    {seq : UInt64} (hseq : seq.toNat = n) {prev : UInt64}
    (hprev : prev = links.last 0 (slots disk start 0 n)) :
    Intact (putRecord disk start n (e.record seq prev)) start sectors (n + 1) := by
  have hold : ∀ k < n, slotAt (putRecord disk start n (e.record seq prev)) start k =
      slotAt disk start k := fun k hk => slotAt_putRecord_of_ne _ _ _ (by omega)
  refine (h.congr hold).extend hlt hseq ?_ (slotAt_putRecord_self _ _ _ _)
  rw [slots_congr fun k _ hk => hold k (by omega), hprev]

end Intact

end JungeyOs.Audit
