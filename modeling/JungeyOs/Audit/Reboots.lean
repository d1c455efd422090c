import JungeyOs.Audit.Log
import JungeyOs.Lib.Run
import JungeyOs.Ota.PowerCuts

/-!
# The action log across reboots

A machine whose disk `format` has just laid out appends to its log and reboots, in
any order. A reboot mounts the filesystem and runs `audit::init` on the region that
the superblock names (`kernel/src/main.rs`, line 1987); the records of a filesystem
that was on the disk before may still lie behind the first sector of the region.

Results:
* `inv_step`: an append or a reboot keeps `Inv`.
* `log_recovered`: as long as no reboot finds an old record right behind the last one,
  the log is recovered in full and no record is lost, overwritten or miscounted.
* `old_record_counted`: a reboot that finds one counts it.
-/

namespace JungeyOs.Audit

open JungeyOs.Bytes JungeyOs.Jlfs Blk HashChain

/-- What a machine that keeps an action log does. -/
inductive Act
  | append (e : Entry)
  | reboot

/-- A disk, the log of the kernel that is running, and what was done since `format`:
whether a kernel was booted, the records that were appended, and the numbers that
`append` returned. -/
structure Machine where
  capacity : ℕ
  disk : Disk
  log : Log
  up : Bool
  written : List Record
  returned : List UInt64

/-- The disk as the kernel finds it; every call on it goes well. -/
def Machine.device (m : Machine) : Device := { capacity := m.capacity, disk := m.disk }

/-- `mounted` and `audit::init`, as stage 6 runs them (`main.rs`, lines 1980–1987). -/
def bootLog : Blk Log := do
  let f ← mount
  init f.auditStart f.auditSectors

/-- One step. A panic stops the kernel until the next reboot. -/
def Machine.step (m : Machine) : Act → Option Machine
  | .append e =>
    match append m.log e m.device with
    | (.ok (seq, log), d) => some { m with
        disk := d.disk
        log := log
        written := m.written ++ [e.record m.log.nextSeq m.log.lastHash]
        returned := m.returned ++ [seq] }
    | (.err _, d) => some { m with disk := d.disk }
    | (.halted _, d) => some { m with disk := d.disk, log := .off, up := false }
  | .reboot =>
    match bootLog m.device with
    | (.ok log, d) => some { m with disk := d.disk, log := log, up := true }
    | (_, d) => some { m with disk := d.disk, log := .off, up := true }

/-- A disk that `format` has just laid out over its whole capacity, whatever was on
it before. -/
def Machine.Fresh (m : Machine) : Prop :=
  ∃ total d d', format total d = (.ok (), d') ∧ m.capacity = d'.capacity ∧
    total.toNat = d'.capacity ∧ m.disk = d'.disk ∧ m.log = .off ∧ m.up = false ∧ m.written = [] ∧
    m.returned = []

/-- A reboot does not find an old record behind the last one: the first sector of the
region, the one that `format` clears, is not full yet, or the region is, or the next
slot holds no magic number. -/
def Machine.EndsClean (m : Machine) (a : Act) : Prop :=
  a = .reboot → ∀ f, mount m.device = (.ok f, m.device) →
    4 ≤ m.written.length → m.written.length < f.auditSectors.toNat * 4 →
      getU64 (slotAt m.disk f.auditStart.toNat m.written.length) OFF_MAGIC ≠ MAGIC

/-- The log is what was appended to it. -/
structure Machine.Faithful (m : Machine) (f : Fs) : Prop where
  mounts : mount m.device = (.ok f, m.device)
  recovered : m.up = true → m.log.ready = true ∧ m.log.nextSeq.toNat = m.written.length ∧
    m.log.lastHash = ((m.written.getLast?).map (getU64 · OFF_HASH)).getD 0
  returned : m.returned.map UInt64.toNat = List.range m.written.length
  kept : ∀ k (h : k < m.written.length), slotAt m.disk f.auditStart.toNat k = m.written[k]
  verified : m.up = true → verify m.log m.device = (.ok ⟨m.written.length, none⟩, m.device)
  accepts : m.up = true → m.written.length < f.auditSectors.toNat * 4 → ∀ e, ∃ log d,
    append m.log e m.device = (.ok (m.log.nextSeq, log), d)

/-! ## The invariant -/

/-- `n` records were appended since `format`. -/
structure Inv (m : Machine) (f : Fs) : Prop where
  home : Ota.Home m.capacity f m.disk
  above : f.otaStart.toNat ≤ f.auditStart.toNat
  capacity : f.auditStart.toNat + f.auditSectors.toNat ≤ m.capacity
  fits : m.capacity < 2 ^ 64
  room : f.auditSectors.toNat * 4 < 2 ^ 64
  intact : Intact m.disk f.auditStart.toNat f.auditSectors.toNat m.written.length
  written : slots m.disk f.auditStart.toNat 0 m.written.length = m.written
  cleared : ∀ k, m.written.length ≤ k → k < 4 →
    getU64 (slotAt m.disk f.auditStart.toNat k) OFF_MAGIC ≠ MAGIC
  returned : m.returned.map UInt64.toNat = List.range m.written.length
  log : m.up = true → m.log.At m.disk m.written.length ∧ m.log.start = f.auditStart ∧
    m.log.sectors = f.auditSectors
  off : m.up = false → m.log = .off

section Inv

variable {m m' : Machine} {f : Fs}

theorem Inv.region (h : Inv m f) : Region f.auditStart f.auditSectors m.device :=
  ⟨rfl, h.capacity, h.fits, h.room⟩

theorem Inv.mounts (h : Inv m f) : mount m.device = (.ok f, m.device) :=
  Ota.Home.mount (d := m.device) h.home rfl

/-- The invariant says everything. -/
theorem Inv.faithful (h : Inv m f) : m.Faithful f := by
  refine ⟨h.mounts, fun hup => ?_, h.returned, fun k hk => ?_, fun hup => ?_, fun hup hlt e => ?_⟩
  · obtain ⟨hat, hstart, -⟩ := h.log hup
    refine ⟨hat.ready, hat.nextSeq, ?_⟩
    rw [hat.lastHash, hstart, h.written, Format.last_eq_getLast]
    rfl
  · have hget := @getElem_slots m.disk f.auditStart.toNat m.written.length k
      (by rwa [length_slots])
    rw [← hget]
    simp only [h.written]
  · obtain ⟨hat, hstart, hsectors⟩ := h.log hup
    refine Intact.verify (d := m.device) ?_ ?_ hat
    · rw [hstart, hsectors]
      exact h.intact
    · rw [hstart, hsectors]
      exact h.region
  · obtain ⟨hat, hstart, hsectors⟩ := h.log hup
    refine Region.append ?_ rfl hat.ready ?_ e
    · rw [hstart, hsectors]
      exact h.region
    · rw [hsectors, hat.nextSeq]
      exact hlt

theorem inv_fresh (h : m.Fresh) : ∃ f, Inv m f ∧ f.auditSectors = AUDIT_SECTORS ∧
    f.auditStart.toNat + 18432 = m.capacity := by
  obtain ⟨total, d, d', hfmt, hcap, htotal, hdisk, hlog, hup, hwritten, hreturned⟩ := h
  obtain ⟨spill, audit, ota, ⟨h1, h2, h3, h4⟩, hhome, hblank, -⟩ := Ota.home_of_format hfmt htotal
  have hlt := total.toNat_lt
  have e1 : SPILL_SECTORS.toNat = 16384 := rfl
  have e2 : AUDIT_SECTORS.toNat = 2048 := rfl
  refine ⟨_, ⟨by rw [hcap, hdisk]; exact hhome, ?_, ?_, by omega,
    (by decide : AUDIT_SECTORS.toNat * 4 < 2 ^ 64), ?_, ?_, ?_, ?_, ?_,
    fun _ => hlog⟩, rfl, by dsimp only; omega⟩
  · dsimp only
    omega
  · dsimp only
    omega
  · rw [hwritten]
    exact .empty
  · rw [hwritten]
    rfl
  · intro k _ hk
    refine not_magic_of_blank ?_
    rw [hdisk, Nat.div_eq_of_lt hk]
    exact hblank
  · rw [hreturned, hwritten]
    rfl
  · rw [hup]
    exact fun h => by cases h

/-- The machine after a record was written. -/
theorem Inv.written_next (h : Inv m f) (hup : m.up = true)
    (hlt : m.written.length < f.auditSectors.toNat * 4) {e : Entry} {log : Log}
    (hnext : m.log.Next e log) : Inv { m with
      disk := m.log.put e m.disk
      log := log
      written := m.written ++ [e.record m.log.nextSeq m.log.lastHash]
      returned := m.returned ++ [m.log.nextSeq] } f := by
  obtain ⟨hat, hstart, hsectors⟩ := h.log hup
  have habove := h.above
  have hput : m.log.put e m.disk = putRecord m.disk f.auditStart.toNat m.written.length
      (e.record m.log.nextSeq m.log.lastHash) := by
    rw [Log.put, hstart, hat.nextSeq]
  have hlast : m.log.lastHash = links.last 0 (slots m.disk f.auditStart.toNat 0 m.written.length) := by
    rw [hat.lastHash, hstart]
  have hlen : (m.written ++ [e.record m.log.nextSeq m.log.lastHash]).length =
      m.written.length + 1 := by
    rw [List.length_append, List.length_singleton]
  have hold : ∀ k, k ≠ m.written.length → slotAt (putRecord m.disk f.auditStart.toNat
      m.written.length (e.record m.log.nextSeq m.log.lastHash)) f.auditStart.toNat k =
        slotAt m.disk f.auditStart.toNat k := fun k hk => slotAt_putRecord_of_ne _ _ _ hk
  have hslots : slots (putRecord m.disk f.auditStart.toNat m.written.length
      (e.record m.log.nextSeq m.log.lastHash)) f.auditStart.toNat 0 (m.written.length + 1) =
        m.written ++ [e.record m.log.nextSeq m.log.lastHash] := by
    rw [slots_concat, slots_congr fun k _ hk => hold k (by omega), h.written,
      slotAt_putRecord_self]
  rw [hput]
  refine ⟨h.home.update (by omega), h.above, h.capacity, h.fits, h.room, ?_, ?_, ?_, ?_,
    fun _ => ⟨⟨hnext.ready, ?_, ?_⟩, hnext.start.trans hstart, hnext.sectors.trans hsectors⟩,
    fun hdown => ?_⟩
  · rw [hlen]
    exact h.intact.put hlt e hat.nextSeq hlast
  · rw [hlen, hslots]
  · intro k hk hk4
    dsimp only at hk
    rw [hlen] at hk
    dsimp only
    rw [hold k (by omega)]
    exact h.cleared k (by omega) hk4
  · rw [hlen, List.map_append, h.returned, List.range_succ, List.map_singleton, hat.nextSeq]
  · rw [hlen, hnext.nextSeq, hat.nextSeq]
  · rw [hlen, hnext.start, hstart, hslots, Format.last_concat, hnext.lastHash]
    exact (getU64_hash e _ _).symm
  · dsimp only at hdown
    rw [hup] at hdown
    cases hdown

/-- A kernel with a log that is not full appends to it. -/
theorem Inv.step_append (h : Inv m f) (hup : m.up = true)
    (hlt : m.written.length < f.auditSectors.toNat * 4) (e : Entry) :
    ∃ m', m.step (.append e) = some m' ∧ Inv m' f ∧ m'.up = true ∧
      m'.written.length = m.written.length + 1 ∧ ∀ k, k ≠ m.written.length →
        slotAt m'.disk f.auditStart.toNat k = slotAt m.disk f.auditStart.toNat k := by
  obtain ⟨log, d, happend⟩ := h.faithful.accepts hup hlt e
  obtain ⟨hat, hstart, -⟩ := h.log hup
  have hcases := appended m.log e m.device
  rw [happend] at hcases
  obtain ⟨-, hnext, hdisk⟩ := hcases.ok _ _ rfl
  have hstep : m.step (.append e) = some { m with
      disk := m.log.put e m.disk
      log := log
      written := m.written ++ [e.record m.log.nextSeq m.log.lastHash]
      returned := m.returned ++ [m.log.nextSeq] } := by
    rw [Machine.step, happend]
    dsimp only
    rw [hdisk]
    rfl
  refine ⟨_, hstep, h.written_next hup hlt hnext, hup, by simp, fun k hk => ?_⟩
  dsimp only
  rw [Log.put, hstart, hat.nextSeq, slotAt_putRecord_of_ne _ _ _ hk]

theorem Inv.append (h : Inv m f) {e : Entry} (hs : m.step (.append e) = some m') : Inv m' f := by
  have hrefused : m.log.ready = false ∨ m.log.sectors.toNat * 4 ≤ m.log.nextSeq.toNat →
      Inv m' f := fun hr => by
    obtain ⟨r, happend, hr⟩ := append_refused hr e m.device
    rw [Machine.step, happend] at hs
    cases r with
    | ok a => exact absurd rfl (hr a)
    | err msg =>
      cases hs
      exact h
    | halted why =>
      cases hs
      exact ⟨h.home, h.above, h.capacity, h.fits, h.room, h.intact, h.written, h.cleared,
        h.returned, (fun hup => by cases hup), fun _ => rfl⟩
  cases hup : m.up with
  | false =>
    refine hrefused (.inl ?_)
    rw [h.off hup]
    rfl
  | true =>
    by_cases hlt : m.written.length < f.auditSectors.toNat * 4
    · obtain ⟨m₁, hs₁, hinv, -⟩ := h.step_append hup hlt e
      cases hs.symm.trans hs₁
      exact hinv
    · obtain ⟨hat, -, hsectors⟩ := h.log hup
      refine hrefused (.inr ?_)
      rw [hsectors, hat.nextSeq]
      omega

/-- A reboot that finds the end of the log recovers it. -/
theorem Inv.step_reboot (h : Inv m f) (hclean : m.EndsClean .reboot) :
    ∃ m', m.step .reboot = some m' ∧ Inv m' f ∧ m'.up = true ∧ m'.disk = m.disk ∧
      m'.written = m.written := by
  obtain ⟨log, hinit, hstart, hsectors, hat⟩ := Intact.init h.intact h.region fun hlt => by
    by_cases h4 : 4 ≤ m.written.length
    · exact hclean rfl f h.mounts h4 hlt
    · exact h.cleared _ le_rfl (by omega)
  have hboot : bootLog m.device = (.ok log, m.device) := (bind_of_ok h.mounts).trans hinit
  have hstep : m.step .reboot = some { m with log := log, up := true } := by
    rw [Machine.step, hboot]
    rfl
  refine ⟨_, hstep, ⟨h.home, h.above, h.capacity, h.fits, h.room, h.intact, h.written, h.cleared,
    h.returned, fun _ => ⟨hat, hstart, hsectors⟩, ?_⟩, rfl, rfl, rfl⟩
  intro hdown
  cases hdown

/-- A reboot that finds an old record behind the last one goes on from its number. -/
theorem Inv.step_reboot_old (h : Inv m f) {s : ℕ}
    (hlt : m.written.length + 1 < f.auditSectors.toNat * 4)
    (hmagic : getU64 (slotAt m.disk f.auditStart.toNat m.written.length) OFF_MAGIC = MAGIC)
    (hseq : (getU64 (slotAt m.disk f.auditStart.toNat m.written.length) OFF_SEQ).toNat = s)
    (hs : s + 1 ≤ f.auditSectors.toNat * 4)
    (hstop : getU64 (slotAt m.disk f.auditStart.toNat (m.written.length + 1)) OFF_MAGIC ≠ MAGIC) :
    ∃ m', m.step .reboot = some m' ∧ m'.up = true ∧ m'.written = m.written ∧
      m'.log.nextSeq.toNat = s + 1 := by
  have hroom := h.room
  have hone : (1 : UInt64).toNat = 1 := rfl
  have hrec : Recorded m.device.disk f.auditStart.toNat f.auditSectors.toNat
      (m.written.length + 1) := by
    refine ⟨⟨by omega, fun k hk => ?_, fun k hk => ?_⟩, fun _ => hstop⟩
    · rcases Nat.lt_succ_iff_lt_or_eq.mp hk with hk | rfl
      · exact h.intact.magic hk
      · exact hmagic
    · rcases Nat.lt_succ_iff_lt_or_eq.mp hk with hk | rfl
      · have hk' := h.intact.seq k hk
        change (getU64 (slotAt m.disk f.auditStart.toNat k) OFF_SEQ).toNat + 1 < 2 ^ 64
        omega
      · change (getU64 (slotAt m.disk f.auditStart.toNat m.written.length) OFF_SEQ).toNat + 1 < 2 ^ 64
        omega
  obtain ⟨capacity, hcap, hinit⟩ := init_eq hrec h.region
  have htip : (tipAt m.disk f.auditStart.toNat (m.written.length + 1)).seq.toNat = s + 1 := by
    rw [tipAt, UInt64.toNat_add, hseq, hone, Nat.mod_eq_of_lt (by omega)]
  have hle : (tipAt m.disk f.auditStart.toNat (m.written.length + 1)).seq ≤ capacity :=
    UInt64.le_iff_toNat_le.mpr (by omega)
  have hmin : min (tipAt m.device.disk f.auditStart.toNat (m.written.length + 1)).seq capacity =
      (tipAt m.disk f.auditStart.toNat (m.written.length + 1)).seq := if_pos hle
  rw [hmin] at hinit
  have hboot : bootLog m.device = _ := (bind_of_ok h.mounts).trans hinit
  have hstep : m.step .reboot = some { m with
      log := ⟨f.auditStart, f.auditSectors,
        (tipAt m.disk f.auditStart.toNat (m.written.length + 1)).seq,
        (tipAt m.disk f.auditStart.toNat (m.written.length + 1)).lastHash, true⟩
      up := true } := by
    rw [Machine.step, hboot]
    rfl
  exact ⟨_, hstep, rfl, rfl, htip⟩

/-- An append or a reboot keeps the invariant. -/
theorem inv_step {a : Act} (h : Inv m f) (hclean : m.EndsClean a) (hs : m.step a = some m') :
    Inv m' f := by
  cases a with
  | append e => exact h.append hs
  | reboot =>
    obtain ⟨m₁, hs₁, hinv, -⟩ := h.step_reboot hclean
    cases hs.symm.trans hs₁
    exact hinv

end Inv

/-- From a freshly laid out disk, over any sequence of appends and reboots in which no
reboot finds an old record behind the last one: `init` recovers the number of records
and the last hash, `append` returns 0, 1, 2 and so on, the records stay as they were
written, and `verify` counts all of them and finds nothing bad. -/
theorem log_recovered {m : Machine}
    (h : Run.Reachable Machine.step Machine.EndsClean Machine.Fresh m) : ∃ f, m.Faithful f := by
  have hinv : ∃ f, Inv m f := h.invariant (fun m => ∃ f, Inv m f)
    (fun _ hfresh => (inv_fresh hfresh).imp fun _ hi => hi.1)
    fun _ _ _ ⟨f, hi⟩ hclean hs => ⟨f, inv_step hi hclean hs⟩
  obtain ⟨f, hi⟩ := hinv
  exact ⟨f, hi.faithful⟩

/-! ## Two machines -/

/-- A disk of 20000 sectors that `format` just laid out over this content. -/
def formatted (disk : Disk) : Machine where
  capacity := 20000
  disk := (Jlfs.format 20000 { capacity := 20000, disk := disk }).2.disk
  log := .off
  up := false
  written := []
  returned := []

theorem fresh_formatted (disk : Disk) : (formatted disk).Fresh ∧
    (formatted disk).disk 1569 = disk 1569 := by
  obtain ⟨d', hfmt, hcap⟩ := @format_healthy 20000 { capacity := 20000, disk := disk } rfl
    (by decide : (20000 : UInt64).toNat ≤ 20000) (by decide)
  obtain ⟨len, spill, audit, ota, ⟨h1, h2, h3, -⟩, -, -, -, hlaid⟩ := format_disk hfmt
  have e1 : SPILL_SECTORS.toNat = 16384 := rfl
  have e2 : AUDIT_SECTORS.toNat = 2048 := rfl
  have e3 : OTA_SECTORS.toNat = 129 := rfl
  have e4 : (20000 : UInt64).toNat = 20000 := rfl
  have e5 : SB_SECTOR = 0 := rfl
  have hdisk : (formatted disk).disk = d'.disk := by rw [formatted, hfmt]
  refine ⟨⟨20000, _, d', hfmt, hcap.symm, hcap.symm, hdisk, rfl, rfl, rfl, rfl⟩, ?_⟩
  rw [hdisk, hlaid, laidOut, Function.update_of_ne (by omega), Function.update_of_ne (by omega),
    Function.update_of_ne (by omega), Function.update_of_ne (by omega),
    Function.update_of_ne (by omega)]

/-- A record of the filesystem that was on the disk before. -/
def oldRecord : Record := Entry.record ⟨0, "", 0, "", ""⟩ 9 0

/-- The first slot of the second sector of the log holds it. -/
def oldDisk : Disk := Function.update (fun _ => blankSector) 1569 (blit blankSector 0 oldRecord)

/-- Four records are appended, and the old one follows them: the next boot goes on at
number 10. -/
theorem old_record_counted : ∃ m, Run.Reachable Machine.step Run.always Machine.Fresh m ∧
    m.up = true ∧ m.written.length = 4 ∧ m.log.nextSeq.toNat = 10 ∧ ∀ f, ¬m.Faithful f := by
  obtain ⟨hfresh, hold⟩ := fresh_formatted oldDisk
  obtain ⟨f, hi, hsectors, hstart⟩ := inv_fresh hfresh
  have hcap : (formatted oldDisk).capacity = 20000 := rfl
  have h0 : (formatted oldDisk).written.length = 0 := rfl
  have hsize : AUDIT_SECTORS.toNat = 2048 := rfl
  have hstart' : f.auditStart.toNat = 1568 := by omega
  have hfits : f.auditSectors.toNat * 4 = 8192 := by
    rw [hsectors]
    rfl
  obtain ⟨m₁, hs₁, hi₁, hup₁, hd₁, hw₁⟩ := hi.step_reboot fun _ _ _ h4 => by omega
  have hw₁ : m₁.written.length = 0 := by rw [hw₁, h0]
  obtain ⟨m₂, hs₂, hi₂, hup₂, hw₂, hk₂⟩ := hi₁.step_append hup₁ (by omega) ⟨0, "", 0, "", ""⟩
  obtain ⟨m₃, hs₃, hi₃, hup₃, hw₃, hk₃⟩ := hi₂.step_append hup₂ (by omega) ⟨0, "", 0, "", ""⟩
  obtain ⟨m₄, hs₄, hi₄, hup₄, hw₄, hk₄⟩ := hi₃.step_append hup₃ (by omega) ⟨0, "", 0, "", ""⟩
  obtain ⟨m₅, hs₅, hi₅, hup₅, hw₅, hk₅⟩ := hi₄.step_append hup₄ (by omega) ⟨0, "", 0, "", ""⟩
  have hkept : ∀ k, 4 ≤ k → slotAt m₅.disk f.auditStart.toNat k =
      slotAt (formatted oldDisk).disk f.auditStart.toNat k := fun k hk => by
    rw [hk₅ k (by omega), hk₄ k (by omega), hk₃ k (by omega), hk₂ k (by omega), hd₁]
  have hsector : (formatted oldDisk).disk 1569 = blit blankSector 0 oldRecord := by
    rw [hold, oldDisk, Function.update_self]
  have hslot4 : slotAt m₅.disk f.auditStart.toNat m₅.written.length = oldRecord := by
    have hlen : m₅.written.length = 4 := by omega
    rw [hlen, hkept 4 (by omega), slotAt, hstart', hsector]
    exact slice_blit_self _ _ _ (by decide)
  have hslot5 : getU64 (slotAt m₅.disk f.auditStart.toNat (m₅.written.length + 1)) OFF_MAGIC ≠
      MAGIC := by
    have hlen : m₅.written.length + 1 = 5 := by omega
    rw [hlen, hkept 5 (by omega), slotAt, hstart', hsector, recordIn, getU64_slice _ _ (by decide),
      getU64_blit _ (by decide), getU64_blank]
    decide
  obtain ⟨m₆, hs₆, hup₆, hw₆, hseq₆⟩ := @Inv.step_reboot_old _ _ hi₅ 9 (by omega)
    (by rw [hslot4]; exact getU64_magic _ _ _) (by rw [hslot4, oldRecord, getU64_seq]; rfl)
    (by omega) hslot5
  have hw₆ : m₆.written.length = 4 := by rw [hw₆]; omega
  refine ⟨m₆, ?_, hup₆, hw₆, hseq₆, fun g hg => ?_⟩
  · exact .next (.next (.next (.next (.next (.next (.start hfresh) trivial hs₁) trivial hs₂)
      trivial hs₃) trivial hs₄) trivial hs₅) trivial hs₆
  · have hcount := (hg.recovered hup₆).2.1
    omega

/-- One record is appended after a boot, and the machine boots again. -/
theorem log_recovered_oneRecord : ∃ (m : Machine) (f : Fs), m.up = true ∧ m.written.length = 1 ∧ m.Faithful f := by
  obtain ⟨hfresh, -⟩ := fresh_formatted fun _ => blankSector
  obtain ⟨f, hi, hsectors, -⟩ := inv_fresh hfresh
  have h0 : (formatted fun _ => blankSector).written.length = 0 := rfl
  have hclean : (formatted fun _ => blankSector).EndsClean .reboot := fun _ _ _ h4 => by omega
  obtain ⟨m₁, hs₁, hi₁, hup₁, -, hw₁⟩ := hi.step_reboot hclean
  have hlt : m₁.written.length < f.auditSectors.toNat * 4 := by
    rw [hw₁, hsectors]
    decide
  obtain ⟨m₂, hs₂, hi₂, hup₂, hw₂, -⟩ := hi₁.step_append hup₁ hlt ⟨0, "", 0, "", ""⟩
  rw [hw₁, h0] at hw₂
  have hclean₂ : m₂.EndsClean .reboot := fun _ _ _ h4 => by omega
  obtain ⟨m₃, hs₃, -, hup₃, -, hw₃⟩ := hi₂.step_reboot hclean₂
  have hreach : Run.Reachable Machine.step Machine.EndsClean Machine.Fresh m₃ :=
    .next (.next (.next (.start hfresh) hclean hs₁) (fun h => by cases h) hs₂) hclean₂ hs₃
  obtain ⟨f, hf⟩ := log_recovered hreach
  exact ⟨m₃, f, hup₃, by rw [hw₃, hw₂], hf⟩

end JungeyOs.Audit
