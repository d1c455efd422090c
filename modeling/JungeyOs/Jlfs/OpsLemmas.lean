import JungeyOs.Jlfs.Ops

/-!
# What each JLFS operation does

One specification for each function of `Jlfs/Ops.lean`; later files use these
and do not unfold the functions again.

Results:
* `format_disk`, `format_ok`: what is on a disk that `format` laid out.
* `format_healthy`: a disk with room for the reserved regions can be laid out.
* `mount_of_root`: `mount` adopts the root with the larger sequence number.
* `stageWrite_ok`, `stageEntry_ok`: the next root an operation builds.
* `touches_stageWrite`, `touches_stageEntry`: before its checkpoint an operation
  changes only the log past its head.
* `read_congr`: a read depends on the sectors below the log head only.
-/

namespace JungeyOs.Jlfs

open JungeyOs.Bytes

/-! ## Format -/

theorem getU64_replicate (n pos : ℕ) : getU64 (Vector.replicate n 0) pos = 0 := by
  have hz : slice (Vector.replicate n 0) pos 8 = Vector.replicate 8 0 := by
    ext k hk
    rw [getElem_slice _ _ hk]
    simp [Vector.getElem?_replicate]
    split_ifs <;> rfl
  rw [getU64, hz]
  rfl

theorem getU64_blank (pos : ℕ) : getU64 blankSector pos = 0 := getU64_replicate _ _

/-- A sector of zeros is not a checkpoint. -/
theorem decode_blank : Checkpoint.decode blankSector = none := by
  unfold Checkpoint.decode
  rw [getU64_blank, if_pos (.inl (by decide))]

/-- The superblock carries its magic number and passes its check. -/
def SuperblockOk (sb : Sector) : Prop := getU64 sb 0 = SB_MAGIC ∧ intact sb = true

theorem superblockOk (t l s a o : UInt64) : SuperblockOk (superblock t l s a o) := by
  have hs : SECTOR_SIZE = 512 := rfl
  refine ⟨?_, intact_seal _⟩
  unfold superblock
  rw [getU64_seal _ (by decide)]
  iterate 9 rw [getU64_putU64_of_disjoint _ (by omega)]
  rw [getU64_putU32 _ (by omega), getU64_putU64 _ (by omega)]

/-- What `format` writes into the superblock, `mount` takes out again. -/
theorem adopt_superblock (t l s a o : UInt64) (slot : Fin 2) (cp : Checkpoint) :
    adopt (superblock t l s a o) slot cp = ⟨cp, s, SPILL_SECTORS, a, AUDIT_SECTORS, o, OTA_SECTORS,
      slot, t⟩ := by
  have hs : SECTOR_SIZE = 512 := rfl
  have hspill : getU64 (superblock t l s a o) 36 = s := by
    unfold superblock
    rw [getU64_seal _ (by decide)]
    iterate 5 rw [getU64_putU64_of_disjoint _ (by omega)]
    exact getU64_putU64 _ (by omega)
  have hspillLen : getU64 (superblock t l s a o) 44 = SPILL_SECTORS := by
    unfold superblock
    rw [getU64_seal _ (by decide)]
    iterate 4 rw [getU64_putU64_of_disjoint _ (by omega)]
    exact getU64_putU64 _ (by omega)
  have haudit : getU64 (superblock t l s a o) 52 = a := by
    unfold superblock
    rw [getU64_seal _ (by decide)]
    iterate 3 rw [getU64_putU64_of_disjoint _ (by omega)]
    exact getU64_putU64 _ (by omega)
  have hauditLen : getU64 (superblock t l s a o) 60 = AUDIT_SECTORS := by
    unfold superblock
    rw [getU64_seal _ (by decide)]
    iterate 2 rw [getU64_putU64_of_disjoint _ (by omega)]
    exact getU64_putU64 _ (by omega)
  have hota : getU64 (superblock t l s a o) 68 = o := by
    unfold superblock
    rw [getU64_seal _ (by decide), getU64_putU64_of_disjoint _ (by omega)]
    exact getU64_putU64 _ (by omega)
  have hotaLen : getU64 (superblock t l s a o) 76 = OTA_SECTORS := by
    unfold superblock
    rw [getU64_seal _ (by decide)]
    exact getU64_putU64 _ (by omega)
  have htotal : getU64 (superblock t l s a o) 12 = t := by
    unfold superblock
    rw [getU64_seal _ (by decide)]
    iterate 8 rw [getU64_putU64_of_disjoint _ (by omega)]
    exact getU64_putU64 _ (by omega)
  rw [adopt, hspill, hspillLen, haudit, hauditLen, hota, hotaLen, htotal]

/-- The sizes of the reserved regions fit together: from the top of the disk the
spill region, the audit log and the update region, and below them the log. -/
structure Geometry (total spill audit ota : UInt64) : Prop where
  spillEnd : spill.toNat + SPILL_SECTORS.toNat = total.toNat
  auditEnd : audit.toNat + AUDIT_SECTORS.toNat = spill.toNat
  otaEnd : ota.toNat + OTA_SECTORS.toNat = audit.toNat
  logStart : LOG_START.toNat ≤ ota.toNat

/-- The log stops at the lowest reserved region. -/
theorem Geometry.logLimit {t l s a o : UInt64} (h : Geometry t s a o) (slot : Fin 2)
    (cp : Checkpoint) : (adopt (superblock t l s a o) slot cp).logLimit = o := by
  obtain ⟨hs, ha, ho, hlog⟩ := h
  have h1 : SPILL_SECTORS.toNat = 16384 := rfl
  have h2 : AUDIT_SECTORS.toNat = 2048 := rfl
  have h3 : OTA_SECTORS.toNat = 129 := rfl
  have h4 : LOG_START.toNat = 8 := rfl
  have hne : o ≠ 0 := by
    rintro rfl
    simp [h4] at hlog
  rw [adopt_superblock, Fs.logLimit]
  simp only [List.foldl_cons, List.foldl_nil]
  have hot : o < t := UInt64.lt_iff_toNat_lt.mpr (by omega)
  have hao : ¬a < o := fun hlt => by have := UInt64.lt_iff_toNat_lt.mp hlt; omega
  have hso : ¬s < o := fun hlt => by have := UInt64.lt_iff_toNat_lt.mp hlt; omega
  rw [if_pos (c := o ≠ 0 ∧ o < t) ⟨hne, hot⟩, if_neg (c := a ≠ 0 ∧ a < o) fun hlt => hao hlt.2,
    if_neg fun hlt => hso hlt.2]

/-- A disk right after `format`. -/
structure Formatted (total : UInt64) (capacity : ℕ) (disk : Disk) : Prop where
  slots : 2 < capacity
  superblock : ∃ len spill audit ota,
    disk SB_SECTOR = superblock total len spill audit ota ∧ Geometry total spill audit ota ∧
      ota.toNat < capacity ∧ disk ota.toNat = blankSector
  slotA : disk (CP_SECTORS 0) = Checkpoint.new.encode
  slotB : disk (CP_SECTORS 1) = blankSector

/-- The five sectors that `format` lays down. -/
def laidOut (total len spill audit ota : UInt64) (disk : Disk) : Disk :=
  Function.update (Function.update (Function.update (Function.update
    (Function.update disk SB_SECTOR (superblock total len spill audit ota)) 2 blankSector)
    1 Checkpoint.new.encode) audit.toNat blankSector) ota.toNat blankSector

/-- The writes of `format` (lines 238–254). -/
def layDown (totalSectors logLen spillStart auditStart otaStart : UInt64) : Blk Unit := do
  Blk.writeSector SB_SECTOR (superblock totalSectors logLen spillStart auditStart otaStart)
  Blk.writeSector (CP_SECTORS 1) blankSector
  Blk.writeSector (CP_SECTORS 0) Checkpoint.new.encode
  Blk.writeSector auditStart.toNat blankSector
  Blk.writeSector otaStart.toNat blankSector

/-- The disk has every sector that was written. -/
theorem layDown_ok {total len spill audit ota : UInt64} {d d' : Device}
    {u : Unit} (h : layDown total len spill audit ota d = (.ok u, d')) :
    2 < d.capacity ∧ audit.toNat < d.capacity ∧ ota.toNat < d.capacity ∧
      d'.capacity = d.capacity ∧ d'.disk = laidOut total len spill audit ota d.disk := by
  unfold layDown at h
  obtain ⟨_, e1, w1, h⟩ := Blk.bind_eq_ok h
  obtain ⟨_, e2, w2, h⟩ := Blk.bind_eq_ok h
  obtain ⟨_, e3, w3, h⟩ := Blk.bind_eq_ok h
  obtain ⟨_, e4, w4, w5⟩ := Blk.bind_eq_ok h
  obtain ⟨-, c1, u1⟩ := Blk.writeSector_ok w1
  obtain ⟨hcap, c2, u2⟩ := Blk.writeSector_ok w2
  obtain ⟨-, c3, u3⟩ := Blk.writeSector_ok w3
  obtain ⟨haudit, c4, u4⟩ := Blk.writeSector_ok w4
  obtain ⟨hota, c5, u5⟩ := Blk.writeSector_ok w5
  have hA : CP_SECTORS 0 = 1 := rfl
  have hB : CP_SECTORS 1 = 2 := rfl
  refine ⟨by omega, by omega, by omega, by omega, ?_⟩
  rw [u5, u4, u3, u2, u1, hA, hB, laidOut]

theorem layDown_healthy (total len spill audit ota : UInt64) {d : Device} (hw : d.writes = [])
    (hcap : 2 < d.capacity) (haudit : audit.toNat < d.capacity) (hota : ota.toNat < d.capacity) :
    ∃ d', layDown total len spill audit ota d = (.ok (), d') ∧ d'.capacity = d.capacity := by
  have hA : CP_SECTORS 0 = 1 := rfl
  have hB : CP_SECTORS 1 = 2 := rfl
  have hS : SB_SECTOR = 0 := rfl
  have hwrite : ∀ (sector : ℕ) (data : Sector) (e : Device), e.writes = [] →
      e.capacity = d.capacity → sector < d.capacity → ∃ e', Blk.writeSector sector data e =
        (.ok (), e') ∧ e'.writes = [] ∧ e'.capacity = d.capacity :=
    fun sector data e hw hc hlt => ⟨_, Blk.writeSector_of_healthy data hw (hc ▸ hlt), hw, hc⟩
  obtain ⟨d1, w1, hw1, hc1⟩ := hwrite SB_SECTOR (superblock total len spill audit ota) d hw rfl
    (by omega)
  obtain ⟨d2, w2, hw2, hc2⟩ := hwrite (CP_SECTORS 1) blankSector d1 hw1 hc1 (by omega)
  obtain ⟨d3, w3, hw3, hc3⟩ := hwrite (CP_SECTORS 0) Checkpoint.new.encode d2 hw2 hc2 (by omega)
  obtain ⟨d4, w4, hw4, hc4⟩ := hwrite audit.toNat blankSector d3 hw3 hc3 haudit
  obtain ⟨d5, w5, -, hc5⟩ := hwrite ota.toNat blankSector d4 hw4 hc4 hota
  refine ⟨d5, ?_, hc5⟩
  unfold layDown
  rw [Blk.bind_of_ok w1, Blk.bind_of_ok w2, Blk.bind_of_ok w3, Blk.bind_of_ok w4, w5]

/-- `format` writes five sectors and leaves the others as they are. -/
theorem format_disk {total : UInt64} {d d' : Device} {u : Unit} (h : format total d = (.ok u, d')) :
    ∃ len spill audit ota, Geometry total spill audit ota ∧ 2 < d.capacity ∧
      ota.toNat < d.capacity ∧ d'.capacity = d.capacity ∧
      d'.disk = laidOut total len spill audit ota d.disk := by
  unfold format at h
  obtain ⟨spill, d1, h1, h⟩ := Blk.bind_eq_ok h
  obtain ⟨audit, d2, h2, h⟩ := Blk.bind_eq_ok h
  obtain ⟨ota, d3, h3, h⟩ := Blk.bind_eq_ok h
  obtain ⟨len, d4, h4, h⟩ := Blk.bind_eq_ok h
  obtain ⟨hspill, hle1, rfl⟩ := Blk.subU64_ok h1
  obtain ⟨haudit, hle2, rfl⟩ := Blk.subU64_ok h2
  obtain ⟨hota, hle3, rfl⟩ := Blk.subU64_ok h3
  obtain ⟨-, hle4, rfl⟩ := Blk.subU64_ok h4
  obtain ⟨hcap, -, hcapOta, hc, hdisk⟩ := layDown_ok h
  exact ⟨len, spill, audit, ota, ⟨by omega, by omega, by omega, hle4⟩, hcap, hcapOta, hc, hdisk⟩

/-- What is on a disk that `format` laid out. The audit log and the boot control
block lie past sector 7, since their distance from the log's start is computed
first. -/
theorem format_ok {total : UInt64} {d d' : Device} {u : Unit} (h : format total d = (.ok u, d')) :
    Formatted total d'.capacity d'.disk := by
  obtain ⟨len, spill, audit, ota, hgeo, hcap, hcapOta, hc, hdisk⟩ := format_disk h
  have hlog := hgeo.logStart
  have hend := hgeo.otaEnd
  have hstart : LOG_START.toNat = 8 := rfl
  have h1' : CP_SECTORS 1 = 2 := rfl
  have h0' : CP_SECTORS 0 = 1 := rfl
  have hlow : ∀ x, x < 8 → d'.disk x = (Function.update (Function.update
      (Function.update d.disk SB_SECTOR (superblock total len spill audit ota)) 2 blankSector)
      1 Checkpoint.new.encode) x := by
    intro x hx
    rw [hdisk, laidOut, Function.update_of_ne (by omega), Function.update_of_ne (by omega)]
  refine ⟨by omega, ⟨len, spill, audit, ota, ?_, hgeo, by omega,
    by rw [hdisk, laidOut, Function.update_self]⟩, ?_, ?_⟩
  · rw [hlow _ (by decide), Function.update_of_ne (by decide), Function.update_of_ne (by decide),
      Function.update_self]
  · rw [hlow _ (by decide), h0', Function.update_self]
  · rw [hlow _ (by decide), h1', Function.update_of_ne (by decide), Function.update_self]

/-- A disk that has room for the reserved regions can be laid out. -/
theorem format_healthy {total : UInt64} {d : Device} (hw : d.writes = [])
    (hcap : total.toNat ≤ d.capacity)
    (hsize : (SPILL_SECTORS + AUDIT_SECTORS + OTA_SECTORS + LOG_START).toNat ≤ total.toNat) :
    ∃ d', format total d = (.ok (), d') ∧ d'.capacity = d.capacity := by
  have hsum : (SPILL_SECTORS + AUDIT_SECTORS + OTA_SECTORS + LOG_START).toNat = 18569 := rfl
  have h1 : SPILL_SECTORS.toNat = 16384 := rfl
  have h2 : AUDIT_SECTORS.toNat = 2048 := rfl
  have h3 : OTA_SECTORS.toNat = 129 := rfl
  have h4 : LOG_START.toNat = 8 := rfl
  obtain ⟨spill, hspill, hspillEq⟩ := Blk.subU64_of_le (b := SPILL_SECTORS) (a := total) (by omega) d
  obtain ⟨audit, haudit, hauditEq⟩ := Blk.subU64_of_le (b := AUDIT_SECTORS) (a := spill) (by omega) d
  obtain ⟨ota, hota, hotaEq⟩ := Blk.subU64_of_le (b := OTA_SECTORS) (a := audit) (by omega) d
  obtain ⟨len, hlen, -⟩ := Blk.subU64_of_le (b := LOG_START) (a := ota) (by omega) d
  obtain ⟨d', hd', hc⟩ := layDown_healthy total len spill audit ota hw (by omega) (by omega) (by omega)
  refine ⟨d', ?_, hc⟩
  unfold format
  rw [Blk.bind_of_ok hspill, Blk.bind_of_ok haudit, Blk.bind_of_ok hota, Blk.bind_of_ok hlen]
  exact hd'

/-! ## Mount -/

/-- Slot `slot` holds the newest checkpoint that decodes. -/
structure Root (disk : Disk) (slot : Fin 2) (cp : Checkpoint) : Prop where
  live : Checkpoint.decode (disk (CP_SECTORS slot)) = some cp
  newest : ∀ c, Checkpoint.decode (disk (CP_SECTORS (1 - slot))) = some c → c.seq < cp.seq

theorem newer_of_decode {best : Option (Fin 2 × Checkpoint)} {slot : Fin 2} {raw : Sector}
    {cp : Checkpoint} (h : Checkpoint.decode raw = some cp)
    (hbest : ∀ b, best = some b → b.2.seq < cp.seq) : newer best slot raw = some (slot, cp) := by
  unfold newer
  rw [h]
  cases best with
  | none => rfl
  | some b => simp [hbest b rfl]

theorem newer_of_le {best : Fin 2 × Checkpoint} {slot : Fin 2} {raw : Sector}
    (h : ∀ c, Checkpoint.decode raw = some c → c.seq < best.2.seq) :
    newer (some best) slot raw = some best := by
  unfold newer
  match hd : Checkpoint.decode raw with
  | none => rfl
  | some c => simp [UInt64.not_lt.mpr (UInt64.le_of_lt (h c hd))]

theorem newer_of_root {disk : Disk} {slot : Fin 2} {cp : Checkpoint} (h : Root disk slot cp) :
    newer (newer none 0 (disk (CP_SECTORS 0))) 1 (disk (CP_SECTORS 1)) = some (slot, cp) := by
  obtain ⟨hlive, hnew⟩ := h
  have hslot : slot = 0 ∨ slot = 1 := by omega
  rcases hslot with rfl | rfl
  · rw [show (1 : Fin 2) - 0 = 1 from rfl] at hnew
    rw [newer_of_decode hlive (by simp), newer_of_le hnew]
  · rw [show (1 : Fin 2) - 1 = 0 from rfl] at hnew
    refine newer_of_decode hlive fun b hb => ?_
    unfold newer at hb
    cases ha : Checkpoint.decode (disk (CP_SECTORS 0)) with
    | none => rw [ha] at hb; cases hb
    | some c =>
      rw [ha] at hb
      cases hb
      exact hnew c ha

/-- `mount` adopts the root with the larger sequence number. -/
theorem mount_of_root {d : Device} {slot : Fin 2} {cp : Checkpoint} (hr : d.reads = [])
    (hcap : 2 < d.capacity) (hsb : SuperblockOk (d.disk SB_SECTOR)) (hroot : Root d.disk slot cp) :
    mount d = (.ok (adopt (d.disk SB_SECTOR) slot cp), d) := by
  have h0 : SB_SECTOR = 0 := rfl
  have h1 : CP_SECTORS 0 = 1 := rfl
  have h2 : CP_SECTORS 1 = 2 := rfl
  have hread : ∀ x, x ≤ 2 → Blk.readSector x d = (.ok (d.disk x), d) := fun x hx =>
    Blk.readSector_of_healthy hr (by omega)
  unfold mount
  rw [Blk.bind_of_ok (hread _ (by omega)), if_neg (not_not.mpr hsb.1), if_neg (by simp [hsb.2]),
    Blk.bind_of_ok (hread _ (by omega)), Blk.bind_of_ok (hread _ (by omega)), newer_of_root hroot]
  rfl

theorem newer_eq_some {best : Option (Fin 2 × Checkpoint)} {slot : Fin 2} {raw : Sector}
    {b : Fin 2 × Checkpoint} (h : newer best slot raw = some b) :
    best = some b ∨ b.1 = slot ∧ Checkpoint.decode raw = some b.2 := by
  unfold newer at h
  cases hd : Checkpoint.decode raw with
  | none =>
    rw [hd] at h
    exact .inl h
  | some cp =>
    rw [hd] at h
    dsimp only at h
    split_ifs at h
    · cases h
      exact .inr ⟨rfl, rfl⟩
    · exact .inl h

/-- Whatever `mount` returns it took from the superblock and a slot that decodes. -/
theorem mount_eq_ok {d d' : Device} {fs : Fs} (h : mount d = (.ok fs, d')) :
    ∃ slot cp, fs = adopt (d.disk SB_SECTOR) slot cp ∧
      Checkpoint.decode (d.disk (CP_SECTORS slot)) = some cp := by
  unfold mount at h
  obtain ⟨sb, d1, hsb, h⟩ := Blk.bind_eq_ok h
  obtain ⟨rfl, rfl⟩ := Blk.readSector_ok hsb
  split_ifs at h
  · cases h
  · cases h
  obtain ⟨a, d2, ha, h⟩ := Blk.bind_eq_ok h
  obtain ⟨rfl, rfl⟩ := Blk.readSector_ok ha
  obtain ⟨b, d3, hb, h⟩ := Blk.bind_eq_ok h
  obtain ⟨rfl, rfl⟩ := Blk.readSector_ok hb
  cases hbest : newer (newer none 0 (d.disk (CP_SECTORS 0))) 1 (d.disk (CP_SECTORS 1)) with
  | none =>
    rw [hbest] at h
    cases h
  | some best =>
    obtain ⟨slot, cp⟩ := best
    rw [hbest] at h
    obtain ⟨rfl, -⟩ := Blk.pure_eq_ok h
    refine ⟨slot, cp, rfl, ?_⟩
    rcases newer_eq_some hbest with hfirst | ⟨rfl, hdec⟩
    · rcases newer_eq_some hfirst with hnone | ⟨rfl, hdec⟩
      · cases hnone
      · exact hdec
    · exact hdec

/-- If `mount` returns at all, it adopts the newer root. -/
theorem mount_root {d d' : Device} {slot : Fin 2} {cp : Checkpoint} {fs : Fs}
    (hroot : Root d.disk slot cp) (h : mount d = (.ok fs, d')) :
    fs = adopt (d.disk SB_SECTOR) slot cp := by
  unfold mount at h
  obtain ⟨sb, d1, hsb, h⟩ := Blk.bind_eq_ok h
  obtain ⟨rfl, rfl⟩ := Blk.readSector_ok hsb
  split_ifs at h
  · cases h
  · cases h
  obtain ⟨a, d2, ha, h⟩ := Blk.bind_eq_ok h
  obtain ⟨rfl, rfl⟩ := Blk.readSector_ok ha
  obtain ⟨b, d3, hb, h⟩ := Blk.bind_eq_ok h
  obtain ⟨rfl, rfl⟩ := Blk.readSector_ok hb
  dsimp only at h
  rw [newer_of_root hroot] at h
  exact (Blk.pure_eq_ok h).1

/-! ## The next root -/

/-- The entries of a checkpoint that name files. -/
def Checkpoint.live (cp : Checkpoint) : List FileEntry := cp.files.toList.take cp.count

theorem Checkpoint.mem_live {cp : Checkpoint} {e : FileEntry} :
    e ∈ cp.live ↔ ∃ (i : ℕ) (h : i < MAX_FILES), i < cp.count ∧ cp.files[i] = e := by
  rw [Checkpoint.live, List.mem_take_iff_getElem]
  constructor
  · rintro ⟨i, hi, rfl⟩
    rw [Vector.length_toList] at hi
    exact ⟨i, by omega, by omega, by simp⟩
  · rintro ⟨i, hi, hcount, rfl⟩
    exact ⟨i, by rw [Vector.length_toList]; omega, by simp⟩

theorem Checkpoint.live_new : Checkpoint.new.live = [] := rfl

namespace Fs

variable {fs : Fs} {name : String} {data : List UInt8} {crashAfter : Option UInt32}
  {entry : Option FileEntry} {d d' : Device}

/-- An index that `find` returns is that of a live entry of that name. -/
theorem find_eq_some {i : ℕ} (hwf : fs.cp.WF) (h : fs.find name = some i) :
    ∃ hi : i < MAX_FILES, i < fs.cp.count ∧ fs.cp.files[i].nameStr = name := by
  unfold find files at h
  obtain ⟨hlt, hname, -⟩ := List.findIdx?_eq_some_iff_getElem.mp h
  have hcount := hwf.count_le
  simp only [List.length_take, Vector.length_toList] at hlt
  refine ⟨by omega, by omega, ?_⟩
  simpa using hname

/-- What `entry` returns is a live entry of that name. -/
theorem entry_eq_some {e : FileEntry} (hwf : fs.cp.WF) (h : fs.entry name = some e) :
    e.nameStr = name ∧ e ∈ fs.cp.live := by
  obtain ⟨i, hfind, hi⟩ := Option.bind_eq_some_iff.mp h
  obtain ⟨hlt, hcount, hname⟩ := find_eq_some hwf hfind
  rw [Vector.getElem?_eq_getElem hlt] at hi
  cases hi
  exact ⟨hname, Checkpoint.mem_live.mpr ⟨i, hlt, hcount, rfl⟩⟩

/-- The entry of a directory with one file. -/
theorem entry_of_single {e : FileEntry} (hcount : fs.cp.count = 1)
    (hfirst : fs.cp.files[0]? = some e) (hname : e.nameStr = name) : fs.entry name = some e := by
  have hfiles : fs.files = [e] := by
    rw [files, hcount, List.take_one, List.head?_eq_getElem?, Vector.getElem?_toList, hfirst]
    rfl
  have hfind : fs.find name = some 0 := by
    rw [find, hfiles]
    simp [hname]
  rw [entry, hfind, Option.bind_some, hfirst]

/-- `next` is a root that follows the live one: its files are those of `fs`, and
the `added` one. -/
structure Next (fs : Fs) (added : Option FileEntry) (next : Checkpoint) : Prop where
  seq : next.seq.toNat = fs.cp.seq.toNat + 1
  wf : next.WF
  live : ∀ x ∈ next.live, x ∈ fs.cp.live ∨ some x = added

/-- An entry is put in place of another, or after the last one. -/
theorem next_put {i count : ℕ} {seq logHead : UInt64} {e : FileEntry} (hwf : fs.cp.WF)
    (hseq : seq.toNat = fs.cp.seq.toNat + 1) (hi : i < count) (hle : fs.cp.count ≤ count)
    (hmax : count ≤ MAX_FILES) (hlast : ∀ k < count, k ≠ i → k < fs.cp.count) :
    fs.Next (some e) ⟨seq, logHead, fs.cp.files.setIfInBounds i e, count⟩ := by
  refine ⟨hseq, ⟨hmax, fun j hj hcj => ?_⟩, fun x hx => ?_⟩
  · have hne : i ≠ j := fun he => Nat.not_le.mpr hi (he ▸ hcj)
    exact (Vector.getElem_setIfInBounds_ne hj hne).trans (hwf.empty j hj (hle.trans hcj))
  · obtain ⟨k, hk, hcount, rfl⟩ := Checkpoint.mem_live.mp hx
    simp only [Vector.getElem_setIfInBounds]
    split_ifs with hik
    · exact .inr rfl
    · exact .inl (Checkpoint.mem_live.mpr ⟨k, hk, hlast k hcount (Ne.symm hik), rfl⟩)

/-- One move of the shift. -/
def shiftOne (files : Vector FileEntry MAX_FILES) (j : ℕ) : Vector FileEntry MAX_FILES :=
  files.setIfInBounds j (files[j + 1]?.getD FileEntry.empty)

/-- The moves of the shift put live entries into live places. -/
theorem shift_live {cp : Checkpoint} (hwf : cp.WF) (l : List ℕ) (hl : ∀ j ∈ l, j + 1 < cp.count)
    (files : Vector FileEntry MAX_FILES)
    (hf : ∀ k (hk : k < MAX_FILES), k < cp.count → files[k] ∈ cp.live) :
    ∀ k (hk : k < MAX_FILES), k < cp.count → (l.foldl shiftOne files)[k] ∈ cp.live := by
  induction l generalizing files with
  | nil => exact hf
  | cons j l ih =>
    refine ih (fun j hj => hl j (List.mem_cons_of_mem _ hj)) _ fun k hk hcount => ?_
    have hj := hl j List.mem_cons_self
    have hmax := hwf.count_le
    have hlt : j + 1 < MAX_FILES := by omega
    rw [shiftOne, Vector.getElem_setIfInBounds, Vector.getElem?_eq_getElem hlt, Option.getD_some]
    split_ifs
    · exact hf (j + 1) hlt hj
    · exact hf k hk hcount

/-- The moves of the shift leave the places from the last entry on alone. -/
theorem shift_rest (l : List ℕ) (files : Vector FileEntry MAX_FILES) {j : ℕ} (hj : j < MAX_FILES)
    (hl : ∀ k ∈ l, k ≠ j) : (l.foldl shiftOne files)[j] = files[j] := by
  induction l generalizing files with
  | nil => rfl
  | cons k l ih =>
    rw [List.foldl_cons, ih _ fun m hm => hl m (List.mem_cons_of_mem k hm), shiftOne,
      Vector.getElem_setIfInBounds_ne hj (hl k List.mem_cons_self)]

/-- The directory without one of its entries. -/
theorem next_shiftDown {i : ℕ} {seq logHead : UInt64} {added : Option FileEntry} (hwf : fs.cp.WF)
    (hseq : seq.toNat = fs.cp.seq.toNat + 1) (hi : i < fs.cp.count) :
    fs.Next added ⟨seq, logHead, shiftDown fs.cp.files i fs.cp.count, fs.cp.count - 1⟩ := by
  have hmax := hwf.count_le
  have hrange : ∀ j ∈ List.range' i (fs.cp.count - 1 - i), j + 1 < fs.cp.count := by
    intro j hj
    rw [List.mem_range'_1] at hj
    omega
  have hdef : shiftDown fs.cp.files i fs.cp.count =
      ((List.range' i (fs.cp.count - 1 - i)).foldl shiftOne fs.cp.files).setIfInBounds
        (fs.cp.count - 1) FileEntry.empty := rfl
  refine ⟨hseq, ⟨by simp only; omega, fun j hj hcj => ?_⟩, fun x hx => ?_⟩
  · simp only [hdef, Vector.getElem_setIfInBounds] at hcj ⊢
    split_ifs with hlast
    · rfl
    · rw [shift_rest _ _ hj fun k hk => by have := hrange k hk; omega]
      exact hwf.empty j hj (by omega)
  · obtain ⟨k, hk, hcount, rfl⟩ := Checkpoint.mem_live.mp hx
    simp only at hcount
    simp only [hdef, Vector.getElem_setIfInBounds, if_neg (show fs.cp.count - 1 ≠ k by omega)]
    refine .inl (shift_live hwf _ hrange _ (fun m hm hc => ?_) k hk (by omega))
    exact Checkpoint.mem_live.mpr ⟨m, hm, hc, rfl⟩

theorem nextRoot_ok {e : FileEntry} {seq logHead : UInt64} {next : Checkpoint} (hwf : fs.cp.WF)
    (hseq : seq.toNat = fs.cp.seq.toNat + 1)
    (h : fs.nextRoot name e seq logHead d = (.ok next, d')) :
    d = d' ∧ fs.Next (some e) next ∧ next.logHead = logHead := by
  have hle := hwf.count_le
  unfold nextRoot at h
  cases hfind : fs.find name with
  | some i =>
    obtain ⟨-, hi, -⟩ := find_eq_some hwf hfind
    rw [hfind] at h
    cases h
    exact ⟨rfl, next_put hwf hseq hi le_rfl hle fun k hk _ => hk, rfl⟩
  | none =>
    rw [hfind] at h
    simp only at h
    split_ifs at h with hfull
    · cases h
    · cases h
      exact ⟨rfl, next_put hwf hseq (by omega) (by omega) (by omega) fun k _ _ => by omega, rfl⟩

/-! ### `stageEntry` -/

/-- `set_entry` does not touch the disk before its checkpoint. -/
theorem stageEntry_ok {r : Option Checkpoint} (hwf : fs.cp.WF)
    (h : fs.stageEntry name entry d = (.ok r, d')) :
    d = d' ∧ ∀ next, r = some next → fs.Next entry next ∧ next.logHead = fs.cp.logHead := by
  unfold stageEntry at h
  obtain ⟨seq, d1, hadd, h⟩ := Blk.bind_eq_ok h
  obtain ⟨hseq, rfl⟩ := Blk.addU64_ok hadd
  have hle := hwf.count_le
  cases hfind : fs.find name with
  | some i =>
    obtain ⟨-, hi, -⟩ := find_eq_some hwf hfind
    cases entry with
    | some e =>
      simp only [hfind] at h
      cases h
      refine ⟨rfl, fun next hn => ?_⟩
      cases hn
      exact ⟨next_put hwf hseq hi le_rfl hle fun k hk _ => hk, rfl⟩
    | none =>
      simp only [hfind] at h
      cases h
      refine ⟨rfl, fun next hn => ?_⟩
      cases hn
      exact ⟨next_shiftDown hwf hseq hi, rfl⟩
  | none =>
    cases entry with
    | some e =>
      simp only [hfind] at h
      split_ifs at h with hfull
      · cases h
      · cases h
        refine ⟨rfl, fun next hn => ?_⟩
        cases hn
        exact ⟨next_put hwf hseq (by omega) (by omega) (by omega) fun k _ _ => by omega, rfl⟩
    | none =>
      simp only [hfind] at h
      cases h
      exact ⟨rfl, fun next hn => by cases hn⟩

theorem touches_stageEntry {R : ℕ → Sector → Prop} : Blk.Touches R (fs.stageEntry name entry) := by
  unfold stageEntry
  refine .addU64_bind fun seq _ => ?_
  simp only
  split
  · exact .pure _
  · exact .pure _
  · split_ifs
    · exact .fail _
    · exact .pure _
  · exact .pure _

theorem replays_stageEntry :
    Blk.Replays (fs.stageEntry name entry) (fs.stageEntry name entry) := by
  unfold stageEntry
  refine .bind (Blk.replays_addU64 _ _) fun seq => ?_
  simp only
  split
  · exact .pure _
  · exact .pure _
  · split_ifs
    · exact .fail _ _
    · exact .pure _
  · exact .pure _

/-! ### `stageWrite` -/

/-- The `n` sectors from `start` on hold `data`. -/
def Holds (d : Device) (data : List UInt8) (start n : ℕ) : Prop :=
  ∀ s < n, start + s < d.capacity ∧ d.disk (start + s) = dataSector data s

theorem writeDataSector_ok {start : UInt64} {s : ℕ} {u : Unit} (hs : s < 2 ^ 32)
    (h : writeDataSector start data crashAfter s d = (.ok u, d')) :
    start.toNat + s < d.capacity ∧ d'.capacity = d.capacity ∧
      d'.disk = Function.update d.disk (start.toNat + s) (dataSector data s) := by
  unfold writeDataSector at h
  split_ifs at h
  · cases h
  obtain ⟨pos, d1, hpos, h⟩ := Blk.bind_eq_ok h
  obtain ⟨hposEq, rfl⟩ := Blk.addU64_ok hpos
  rw [UInt64.toNat_ofNat', Nat.mod_eq_of_lt (by omega)] at hposEq
  rw [← hposEq]
  exact Blk.writeSector_ok h

/-- A write that reaches its checkpoint has put all its sectors at the log head,
and moves the head past them. -/
theorem stageWrite_ok {next : Checkpoint} (hwf : fs.cp.WF)
    (h : fs.stageWrite name data crashAfter d = (.ok next, d')) :
    fs.Next (some (newEntry name data fs.cp.logHead (sectorsOf data))) next ∧
      next.logHead.toNat = fs.cp.logHead.toNat + (sectorsOf data).toNat ∧
      Holds d' data fs.cp.logHead.toNat (sectorsOf data).toNat ∧ name.utf8ByteSize ≤ MAX_NAME := by
  unfold stageWrite at h
  split_ifs at h with hname
  · cases h
  obtain ⟨stop, d1, hstop, h⟩ := Blk.bind_eq_ok h
  obtain ⟨hstopEq, rfl⟩ := Blk.addU64_ok hstop
  split_ifs at h with hfull hcrash
  · cases h
  · obtain ⟨_, d2, -, hhalt⟩ := Blk.bind_eq_ok h
    cases hhalt
  obtain ⟨_, d2, hloop, h⟩ := Blk.bind_eq_ok h
  obtain ⟨seq, d3, hseq, h⟩ := Blk.bind_eq_ok h
  obtain ⟨hseqEq, rfl⟩ := Blk.addU64_ok hseq
  obtain ⟨head, d4, hhead, h⟩ := Blk.bind_eq_ok h
  obtain ⟨hheadEq, rfl⟩ := Blk.addU64_ok hhead
  obtain ⟨rfl, hnext, hheadNext⟩ := nextRoot_ok hwf hseqEq h
  rw [UInt32.toNat_toUInt64] at hheadEq
  refine ⟨hnext, by rw [hheadNext, hheadEq], ?_, Nat.le_of_not_lt hname⟩
  -- the invariant of the data loop: the sectors written so far are in place
  refine Blk.forRange_ok (P := fun k e => Holds e data fs.cp.logHead.toNat k)
    (fun s hs => absurd hs (Nat.not_lt_zero s)) (fun k e e' hk hP hb => ?_) hloop
  obtain ⟨hlt, hcap, hdisk⟩ := writeDataSector_ok (by have := (sectorsOf data).toNat_lt; omega) hb
  intro s hs
  rw [hdisk, hcap]
  rcases Nat.lt_succ_iff_lt_or_eq.mp hs with hs | rfl
  · rw [Function.update_of_ne (by omega)]
    exact hP s hs
  · exact ⟨hlt, Function.update_self _ _ _⟩

/-- A write of `data` as `name` is not refused at once. -/
def Accepts (fs : Fs) (name : String) (data : List UInt8) : Prop :=
  name.utf8ByteSize ≤ MAX_NAME ∧
    fs.cp.logHead.toNat + (sectorsOf data).toNat ≤ fs.logLimit.toNat

/-- What a write puts where before its checkpoint: the sectors of its data, in
order from the log head. -/
def Stores (fs : Fs) (name : String) (data : List UInt8) (x : ℕ) (v : Sector) : Prop :=
  fs.Accepts name data ∧
    ∃ s < (sectorsOf data).toNat, x = fs.cp.logHead.toNat + s ∧ v = dataSector data s

theorem touches_writeDataSector (hacc : fs.Accepts name data) {s : ℕ}
    (hs : s < (sectorsOf data).toNat) :
    Blk.Touches (fs.Stores name data) (writeDataSector fs.cp.logHead data crashAfter s) := by
  have h32 := (sectorsOf data).toNat_lt
  unfold writeDataSector
  split_ifs
  · exact .halt _
  · refine .addU64_bind fun pos hpos => Blk.touches_writeSector ⟨hacc, s, hs, ?_, rfl⟩
    rw [hpos, UInt64.toNat_ofNat', Nat.mod_eq_of_lt (by omega)]

theorem touches_nextRoot {R : ℕ → Sector → Prop} {e : FileEntry} {seq logHead : UInt64} :
    Blk.Touches R (fs.nextRoot name e seq logHead) := by
  unfold nextRoot
  split
  · exact .pure _
  · split_ifs
    · exact .fail _
    · exact .pure _

/-- Before its checkpoint a write only puts its data at the log head. -/
theorem touches_stageWrite :
    Blk.Touches (fs.Stores name data) (fs.stageWrite name data crashAfter) := by
  unfold stageWrite
  split_ifs with hname
  · exact .fail _
  refine .addU64_bind fun stop hstop => ?_
  rw [UInt32.toNat_toUInt64] at hstop
  split_ifs with hfull hcrash
  · exact .fail _
  all_goals
    have hacc : fs.Accepts name data :=
      ⟨Nat.le_of_not_lt hname, hstop ▸ UInt64.le_iff_toNat_le.mp (UInt64.not_lt.mp hfull)⟩
    refine .bind (.forRange fun k hk => touches_writeDataSector hacc hk) fun _ => ?_
  · exact .halt _
  · exact .addU64_bind fun seq _ => .addU64_bind fun head _ => touches_nextRoot

/-- On a sector that the disk has, an iteration of the data loop meets the next
fate. -/
theorem writeDataSector_eq {start : UInt64} {s : ℕ} (hs : s < 2 ^ 32)
    (hsum : start.toNat + s < 2 ^ 64) :
    writeDataSector start data none s d =
      Blk.writeSector (start.toNat + s) (dataSector data s) d := by
  have hmod : (UInt64.ofNat s).toNat = s := by
    rw [UInt64.toNat_ofNat', Nat.mod_eq_of_lt (by omega)]
  obtain ⟨pos, hpos, hposEq⟩ := Blk.addU64_of_lt (a := start) (b := UInt64.ofNat s)
    (by rw [hmod]; exact hsum) d
  unfold writeDataSector
  rw [if_neg (by simp), Blk.bind_of_ok hpos, hposEq, hmod]

/-- A write of a new file that is accepted reaches its checkpoint if its data
sectors land. -/
theorem stageWrite_progress (rest : List WriteFate) (hacc : fs.Accepts name data)
    (hnew : fs.find name = none) (hroom : fs.cp.count < MAX_FILES)
    (hseq : fs.cp.seq.toNat + 1 < 2 ^ 64) (hcap : fs.logLimit.toNat ≤ d.capacity)
    (hw : d.writes = List.replicate (sectorsOf data).toNat .ok ++ rest) :
    ∃ next d', fs.stageWrite name data none d = (.ok next, d') ∧ d'.writes = rest ∧
      d'.capacity = d.capacity ∧ next.count = fs.cp.count + 1 ∧
      next.files = fs.cp.files.setIfInBounds fs.cp.count
        (newEntry name data fs.cp.logHead (sectorsOf data)) := by
  obtain ⟨hname, hfit⟩ := hacc
  have hlimit := fs.logLimit.toNat_lt
  have h32 := (sectorsOf data).toNat_lt
  have hone : (1 : UInt64).toNat = 1 := rfl
  have hstopLt : fs.cp.logHead.toNat + (sectorsOf data).toUInt64.toNat < 2 ^ 64 := by
    rw [UInt32.toNat_toUInt64]
    omega
  obtain ⟨stop, hstop, hstopEq⟩ := Blk.addU64_of_lt hstopLt d
  rw [UInt32.toNat_toUInt64] at hstopEq
  -- the invariant of the data loop: one fate is used up for each sector
  have hbody : ∀ k e, k < (sectorsOf data).toNat →
      (e.writes = List.replicate ((sectorsOf data).toNat - k) .ok ++ rest ∧
        e.capacity = d.capacity) →
      ∃ e', writeDataSector fs.cp.logHead data none k e = (.ok (), e') ∧
        e'.writes = List.replicate ((sectorsOf data).toNat - (k + 1)) .ok ++ rest ∧
        e'.capacity = d.capacity := by
    rintro k e hk ⟨hwe, hce⟩
    have hsucc : (sectorsOf data).toNat - k = ((sectorsOf data).toNat - (k + 1)) + 1 := by omega
    rw [hsucc, List.replicate_succ, List.cons_append] at hwe
    rw [writeDataSector_eq (by omega) (by omega), Blk.writeSector_of_fate _ hwe (by omega)]
    exact ⟨_, rfl, rfl, hce⟩
  obtain ⟨d', hloop, hleft, hcap'⟩ := Blk.forRange_progress
    (P := fun k e => e.writes = List.replicate ((sectorsOf data).toNat - k) .ok ++ rest ∧
      e.capacity = d.capacity) ⟨by rw [hw, Nat.sub_zero], rfl⟩ hbody
  obtain ⟨seq, hseqAdd, -⟩ := Blk.addU64_of_lt (a := fs.cp.seq) (b := 1) hseq d'
  refine ⟨⟨seq, stop, fs.cp.files.setIfInBounds fs.cp.count
    (newEntry name data fs.cp.logHead (sectorsOf data)), fs.cp.count + 1⟩, d', ?_, ?_, hcap', rfl, rfl⟩
  · unfold stageWrite
    simp only [reduceCtorEq, if_false]
    rw [if_neg (by omega), Blk.bind_of_ok hstop,
      if_neg (UInt64.not_lt.mpr (UInt64.le_iff_toNat_le.mpr (by omega))), Blk.bind_of_ok hloop,
      Blk.bind_of_ok hseqAdd, Blk.bind_of_ok (Blk.addU64_congr hstop d'), nextRoot, hnew]
    simp only
    rw [if_neg (by omega)]
    rfl
  · simpa using hleft

theorem replays_writeDataSector {start : UInt64} (s : ℕ) :
    Blk.Replays (writeDataSector start data crashAfter s) (writeDataSector start data none s) := by
  unfold writeDataSector
  rw [if_neg (c := none = _) (by simp)]
  split_ifs
  · exact .halt _ _
  · exact .bind (Blk.replays_addU64 _ _) fun pos => Blk.replays_writeSector _ _

theorem replays_nextRoot {e : FileEntry} {seq logHead : UInt64} :
    Blk.Replays (fs.nextRoot name e seq logHead) (fs.nextRoot name e seq logHead) := by
  unfold nextRoot
  split
  · exact .pure _
  · split_ifs
    · exact .fail _ _
    · exact .pure _

/-- A write that reaches its checkpoint does so again without the cut. -/
theorem replays_stageWrite :
    Blk.Replays (fs.stageWrite name data crashAfter) (fs.stageWrite name data none) := by
  unfold stageWrite
  simp only [reduceCtorEq, if_false]
  split_ifs with hname hcrash
  · exact .fail _ _
  all_goals
    refine .bind (Blk.replays_addU64 _ _) fun stop => ?_
    split_ifs with hfull
  · exact .fail _ _
  · exact .bind (.forRange fun k _ => replays_writeDataSector k) fun _ => .halt _ _
  · exact .fail _ _
  · exact .bind (.forRange fun k _ => replays_writeDataSector k) fun _ =>
      .bind (Blk.replays_addU64 _ _) fun seq =>
        .bind (Blk.replays_addU64 _ _) fun head => replays_nextRoot

/-! ## Reading -/

/-- Two devices that give the same answers for the sectors in `S`. -/
structure SameReads (S : ℕ → Prop) (d e : Device) : Prop where
  capacity : d.capacity = e.capacity
  disk : ∀ x, S x → d.disk x = e.disk x
  left : d.reads = []
  right : e.reads = []

/-- Two devices that give the same answers for the sectors in `S`, with the same fates of the reads
to come. -/
structure Alike (S : ℕ → Prop) (d e : Device) : Prop where
  capacity : d.capacity = e.capacity
  disk : ∀ x, S x → d.disk x = e.disk x
  reads : d.reads = e.reads

theorem SameReads.alike {S : ℕ → Prop} {e : Device} (h : SameReads S d e) : Alike S d e :=
  ⟨h.capacity, h.disk, h.left.trans h.right.symm⟩

theorem readSector_alike {S : ℕ → Prop} {e : Device} (h : Alike S d e) {x : ℕ} (hx : S x) :
    ∃ r d' e', Blk.readSector x d = (r, d') ∧ Blk.readSector x e = (r, e') ∧ Alike S d' e' := by
  refine ⟨(Blk.readSector x d).1, { d with reads := d.reads.tail }, { e with reads := e.reads.tail },
    ?_, ?_, h.capacity, h.disk, congrArg List.tail h.reads⟩
  · unfold Blk.readSector
    dsimp only
    split_ifs <;> rfl
  · unfold Blk.readSector
    dsimp only
    rw [h.capacity, h.reads, h.disk x hx]
    split_ifs <;> rfl

theorem readLoop_congr {S : ℕ → Prop} {start : UInt64} {size : ℕ} :
    ∀ (fuel s done : ℕ) (out : List UInt8) {d e : Device}, Alike S d e → s + fuel ≤ 2 ^ 32 →
      (∀ k, s ≤ k → k < s + fuel → S (start.toNat + k)) →
      (readLoop start size fuel s done out d).1 = (readLoop start size fuel s done out e).1 := by
  intro fuel
  induction fuel with
  | zero => exact fun _ _ _ _ _ _ _ _ => rfl
  | succ fuel ih =>
    intro s done out d e hde hlt hS
    unfold readLoop
    rcases Blk.addU64_cases start (UInt64.ofNat s) d with ⟨pos, hpos, hsum⟩ | ⟨hh, hover⟩
    · rw [UInt64.toNat_ofNat', Nat.mod_eq_of_lt (by omega)] at hsum
      obtain ⟨r, d', e', hd, he, hde'⟩ := readSector_alike hde (hsum ▸ hS s le_rfl (by omega))
      rw [Blk.bind_of_ok hpos, Blk.bind_of_ok (Blk.addU64_congr hpos e)]
      match r with
      | .ok sector =>
        rw [Blk.bind_of_ok hd, Blk.bind_of_ok he]
        split_ifs
        · rfl
        · exact ih _ _ _ hde' (by omega) fun k h1 h2 => hS k (by omega) (by omega)
      | .err msg => rw [Blk.bind_of_err hd, Blk.bind_of_err he]
      | .halted why => rw [Blk.bind_of_halted hd, Blk.bind_of_halted he]
    · rw [Blk.bind_of_halted hh, Blk.bind_of_halted (Blk.addU64_congr hh e)]

/-- A read depends on the sectors of the file's own extent only. -/
theorem read_congr {S : ℕ → Prop} {e : Device} (hde : Alike S d e)
    (hS : ∀ f, fs.entry name = some f → ∀ k < f.sectors.toNat, S (f.start.toNat + k))
    (out : List UInt8) : (fs.read name out d).1 = (fs.read name out e).1 := by
  unfold read
  cases hf : fs.entry name with
  | none => rfl
  | some f =>
    simp only
    split_ifs
    · rfl
    have hlt := f.sectors.toNat_lt
    have hloop := @readLoop_congr S f.start f.size.toNat f.sectors.toNat 0 0 out d e hde (by omega)
      fun k _ hk => hS f hf k (by omega)
    rw [Blk.bind_apply, Blk.bind_apply]
    generalize readLoop f.start f.size.toNat f.sectors.toNat 0 0 out d = x at hloop ⊢
    generalize readLoop f.start f.size.toNat f.sectors.toNat 0 0 out e = y at hloop ⊢
    obtain ⟨x1, x2⟩ := x
    obtain ⟨y1, y2⟩ := y
    cases hloop
    cases x1 <;> rfl

/-- A name without NUL bytes is read back from its entry. -/
theorem nameStr_newEntry {start : UInt64} {n : UInt32} (hlen : name.utf8ByteSize ≤ MAX_NAME)
    (hnul : 0 ∉ asBytes name) : (newEntry name data start n).nameStr = name := by
  have htake : (newEntry name data start n).name.toList.takeWhile (· ≠ 0) = asBytes name :=
    takeWhile_padded hlen hnul
  rw [FileEntry.nameStr, htake, fromUtf8_asBytes, Option.getD_some]

/-- The first `n` bytes of a data sector are those of the data. -/
theorem take_dataSector {s n : ℕ} (hn : n ≤ SECTOR_SIZE) (hlen : s * SECTOR_SIZE + n ≤ data.length) :
    (dataSector data s).toList.take n = (data.drop (s * SECTOR_SIZE)).take n := by
  refine List.ext_getElem ?_ fun i h1 h2 => ?_
  · rw [List.length_take, Vector.length_toList, List.length_take, List.length_drop]
    omega
  · rw [List.length_take, Vector.length_toList] at h1
    have hi : s * SECTOR_SIZE + i < data.length := by omega
    rw [List.getElem_take, List.getElem_take, List.getElem_drop, Vector.getElem_toList]
    simp only [dataSector, Vector.getElem_ofFn]
    rw [List.getElem?_eq_getElem hi, Option.getD_some]

/-- The loop of `read` puts the sectors of the data one after the other into
`out`. -/
theorem readLoop_ok {start : UInt64} {n : ℕ} (hr : d.reads = [])
    (hholds : Holds d data start.toNat n) (hn : n = (data.length + 511) / 512)
    (hn32 : n < 2 ^ 32) (hadd : start.toNat + n ≤ 2 ^ 64) (out₀ : List UInt8) :
    ∀ fuel s, s + fuel = n → s * SECTOR_SIZE ≤ data.length →
      readLoop start data.length fuel s (s * SECTOR_SIZE)
          (data.take (s * SECTOR_SIZE) ++ out₀.drop (s * SECTOR_SIZE)) d =
        (.ok (data ++ out₀.drop data.length), d) := by
  have h512 : SECTOR_SIZE = 512 := rfl
  intro fuel
  induction fuel with
  | zero =>
    intro s hs hle
    have hdone : s * SECTOR_SIZE = data.length := by
      rw [h512] at hle ⊢
      omega
    rw [hdone, List.take_length]
    rfl
  | succ fuel ih =>
    intro s hs hle
    obtain ⟨hcap, hsector⟩ := hholds s (by omega)
    obtain ⟨pos, hpos, hposEq⟩ := Blk.addU64_of_lt (a := start) (b := UInt64.ofNat s)
      (by rw [UInt64.toNat_ofNat', Nat.mod_eq_of_lt (by omega)]; omega) d
    rw [UInt64.toNat_ofNat', Nat.mod_eq_of_lt (by omega)] at hposEq
    unfold readLoop
    rw [Blk.bind_of_ok hpos, Blk.bind_of_ok (Blk.readSector_of_healthy hr (hposEq ▸ hcap)), hposEq,
      hsector]
    -- `k` bytes of this sector go into `out`, which then holds the data so far
    generalize hk : min (data.length - s * SECTOR_SIZE) SECTOR_SIZE = k
    have hkeep : (data.take (s * SECTOR_SIZE) ++ out₀.drop (s * SECTOR_SIZE)).take (s * SECTOR_SIZE) =
        data.take (s * SECTOR_SIZE) := by
      rw [List.take_append_of_le_length (by rw [List.length_take]; omega), List.take_take,
        Nat.min_self]
    have hrest : (data.take (s * SECTOR_SIZE) ++ out₀.drop (s * SECTOR_SIZE)).drop
        (s * SECTOR_SIZE + k) = out₀.drop (s * SECTOR_SIZE + k) := by
      have hlen : (data.take (s * SECTOR_SIZE)).length = s * SECTOR_SIZE := by
        rw [List.length_take]
        omega
      rw [List.drop_append, hlen, List.drop_eq_nil_of_le (by omega), List.nil_append,
        List.drop_drop]
      congr 1
      omega
    have hout' : (data.take (s * SECTOR_SIZE) ++ out₀.drop (s * SECTOR_SIZE)).take (s * SECTOR_SIZE) ++
        (dataSector data s).toList.take k ++
        (data.take (s * SECTOR_SIZE) ++ out₀.drop (s * SECTOR_SIZE)).drop (s * SECTOR_SIZE + k) =
        data.take (s * SECTOR_SIZE + k) ++ out₀.drop (s * SECTOR_SIZE + k) := by
      rw [hkeep, hrest, take_dataSector (by omega) (by omega), List.take_add]
    rw [hout']
    split_ifs with hdone
    · rw [hdone, List.take_length]
      rfl
    · have hnext : s * SECTOR_SIZE + k = (s + 1) * SECTOR_SIZE := by
        rw [h512] at hk hdone ⊢
        omega
      rw [hnext]
      exact ih (s + 1) (by omega) (by rw [← hnext]; omega)

/-- A file whose extent holds `data` is read back whole. -/
theorem read_ok {e : FileEntry} (hr : d.reads = []) (he : fs.entry name = some e)
    (hsize : e.size.toNat = data.length) (hlen : data.length < 2 ^ 32)
    (hsectors : e.sectors = sectorsOf data)
    (hholds : Holds d data e.start.toNat (sectorsOf data).toNat)
    (hadd : e.start.toNat + (sectorsOf data).toNat ≤ 2 ^ 64) {out : List UInt8}
    (hout : data.length ≤ out.length) :
    fs.read name out d = (.ok (data.length, data ++ out.drop data.length), d) := by
  have hn : (sectorsOf data).toNat = (data.length + 511) / 512 := by
    simp only [sectorsOf, SECTOR_SIZE, UInt32.toNat_ofNat']
    omega
  have hloop := readLoop_ok hr hholds hn (sectorsOf data).toNat_lt hadd out
    (sectorsOf data).toNat 0 (Nat.zero_add _) (by omega)
  simp only [Nat.zero_mul, List.take_zero, List.drop_zero, List.nil_append] at hloop
  unfold read
  simp only [he]
  rw [if_neg (by omega), hsize, hsectors, Blk.bind_of_ok hloop]
  rfl

end Fs

end JungeyOs.Jlfs
