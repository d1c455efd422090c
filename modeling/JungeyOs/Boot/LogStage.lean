import JungeyOs.Boot.FilesStage
import Mathlib.Data.UInt

/-!
# The action log on a disk whose reads may fail

`audit::init` stops at the first sector that it cannot read, and takes what it has seen so
far for the whole log. The `append` calls after it then go on from there.

Results:
* `Numbered.scan_reads`: how many records `init` finds.
* `appendAll_spec`: from the end of the log on, appends keep every record.
* `appendAll_refused`, `appendAll_reuses`: from an earlier record on, they write over it as
  soon as a sector can be read.
-/

namespace JungeyOs.Boot

open Bytes Jlfs Blk Audit

/-! ## The records -/

/-- Slot `i` holds a record of the log: so do all slots up to it. -/
def Existing (disk : Disk) (start sectors i : ℕ) : Prop :=
  i < sectors * 4 ∧ ∀ j ≤ i, getU64 (slotAt disk start j) OFF_MAGIC = MAGIC

/-- The log has `n` records, and each carries its number. -/
structure Numbered (disk : Disk) (start sectors n : ℕ) : Prop extends
    Recorded disk start sectors n where
  number : ∀ k < n, (getU64 (slotAt disk start k) OFF_SEQ).toNat = k

theorem Numbered.existing_iff {disk : Disk} {start sectors n i : ℕ}
    (h : Numbered disk start sectors n) : Existing disk start sectors i ↔ i < n := by
  constructor
  · rintro ⟨hi, hmagic⟩
    by_contra hge
    exact h.stop (by omega) (hmagic n (by omega))
  · intro hi
    have hle := h.le
    exact ⟨by omega, fun j hj => h.magic j (by omega)⟩

/-- The number that comes after `k` records. -/
theorem Numbered.tipAt_seq {disk : Disk} {start sectors n k : ℕ} (h : Numbered disk start sectors n)
    (hroom : sectors * 4 < 2 ^ 64) (hk : k ≤ n) : (tipAt disk start k).seq.toNat = k := by
  have hle := h.le
  have hone : (1 : UInt64).toNat = 1 := rfl
  cases k with
  | zero => rfl
  | succ k =>
    rw [tipAt, UInt64.toNat_add, h.number k (by omega), hone]
    omega

/-- How many of `n` records are found from sector `s` on, if reads fail as in `reads`. -/
def found (reads : List ReadFate) (s n : ℕ) : ℕ :=
  if .fail ∈ reads then min n (4 * (s + reads.idxOf .fail)) else n

theorem found_le (reads : List ReadFate) (s n : ℕ) : found reads s n ≤ n := by
  unfold found
  split_ifs
  · exact min_le_left _ _
  · exact le_rfl

theorem found_fail (rest : List ReadFate) {s n : ℕ} (h : 4 * s ≤ n) :
    found (.fail :: rest) s n = 4 * s := by
  simp [found, h]

/-- A sector that was read and is full. -/
theorem found_ok (reads : List ReadFate) (h : reads.headD .ok = .ok) (s n : ℕ) :
    found reads s n = found reads.tail (s + 1) n := by
  match reads with
  | [] => rfl
  | .ok :: rest =>
    have hidx : (ReadFate.ok :: rest).idxOf .fail = rest.idxOf .fail + 1 := by
      rw [List.idxOf_cons_ne _ (by decide)]
    simp only [found, List.mem_cons, List.tail_cons, hidx]
    simp [Nat.add_assoc, Nat.add_comm 1]

/-- A sector that was read and holds the end of the log. -/
theorem found_last (reads : List ReadFate) (h : reads.headD .ok = .ok) {s n : ℕ}
    (hn : n ≤ 4 * (s + 1)) : found reads s n = n := by
  rw [found_ok reads h]
  unfold found
  split_ifs
  · omega
  · rfl

section Init

variable {start sectors : UInt64} {d : Device} {n : ℕ}

/-- The log lies on the disk. -/
structure OnDisk (start sectors : UInt64) (capacity : ℕ) : Prop where
  within : start.toNat + sectors.toNat ≤ capacity
  fits : capacity < 2 ^ 64
  room : sectors.toNat * 4 < 2 ^ 64

theorem OnDisk.sector {capacity : ℕ} (h : OnDisk start sectors capacity) {s : ℕ}
    (hs : s < sectors.toNat) (d : Device) : ∃ pos : UInt64,
      addU64 start (UInt64.ofNat s) d = (.ok pos, d) ∧ pos.toNat = start.toNat + s := by
  have hcap := h.within
  have hfits := h.fits
  have hofNat : (UInt64.ofNat s).toNat = s := by
    rw [UInt64.toNat_ofNat']
    omega
  obtain ⟨pos, hpos, hsum⟩ := addU64_of_lt (a := start) (b := UInt64.ofNat s) (by omega) d
  exact ⟨pos, hpos, by omega⟩

/-- The loop of `init` finds the records before the first sector that it cannot read. -/
theorem Numbered.scan_reads (h : Numbered d.disk start.toNat sectors.toNat n)
    (hd : OnDisk start sectors d.capacity) : ∀ (fuel s : ℕ) (reads : List ReadFate),
      s + fuel = sectors.toNat → 4 * s ≤ n → ∃ reads',
        scan start fuel s (tipAt d.disk start.toNat (4 * s)) { d with reads := reads } =
          (.ok (tipAt d.disk start.toNat (found reads s n)), { d with reads := reads' }) ∧
        (found reads s n < n → reads' = reads.drop (reads.idxOf .fail + 1)) := by
  have h4 : RECORDS_PER_SECTOR.toNat = 4 := rfl
  have hle := h.le
  have hcap := hd.within
  intro fuel
  induction fuel with
  | zero =>
    intro s reads hs hn
    have hall : found reads s n = n := by
      unfold found
      split_ifs
      · omega
      · rfl
    refine ⟨reads, ?_, fun hlt => by omega⟩
    rw [hall, show 4 * s = n by omega]
    rfl
  | succ fuel ih =>
    intro s reads hs hn
    obtain ⟨pos, hpos, hsum⟩ := hd.sector (s := s) (by omega) { d with reads := reads }
    rw [scan, bind_of_ok hpos]
    rcases fate_cases (reads.headD .ok) with hread | hread
    · rw [bind_of_ok (attempt_of_ok (readSector_reads (d := { d with reads := reads })
        (by dsimp only; omega) hread))]
      dsimp only
      rw [hsum, h4]
      by_cases hfull : 4 * (s + 1) ≤ n
      · -- four records, and the loop goes on
        have hsector : scanSector (d.disk (start.toNat + s)) 4 0 (tipAt d.disk start.toNat (4 * s))
            { d with reads := reads.tail } =
            (.ok (tipAt d.disk start.toNat (4 * (s + 1)), true), { d with reads := reads.tail }) :=
          h.toCounted.scanSector_eq _ (u := 0) (r := 0) (t := 4) rfl (by omega)
        obtain ⟨reads', hscan, hdrop⟩ := ih (s + 1) reads.tail (by omega) hfull
        refine ⟨reads', ?_, fun hlt => ?_⟩
        · rw [bind_of_ok hsector, found_ok reads hread]
          exact hscan
        · rw [found_ok reads hread] at hlt
          rw [hdrop hlt]
          cases reads with
          | nil => simp
          | cons r rest =>
            have hr : r ≠ .fail := fun hr => by
              rw [hr] at hread
              cases hread
            rw [List.idxOf_cons_ne _ hr, List.tail_cons, List.drop_succ_cons]
      · -- the log ends in this sector
        have hlast : found reads s n = n := found_last reads hread (by omega)
        have hpart := h.toCounted.scanSector_eq (s := s) { d with reads := reads.tail } (r := 0)
          (t := n - 4 * s) (u := 3 - (n - 4 * s) + 1) (by omega) (by omega)
        have hsize : n - 4 * s + (3 - (n - 4 * s) + 1) = 4 := by omega
        have hslot : 4 * s + (n - 4 * s) = n := by omega
        have hrec : recordIn (d.disk (start.toNat + s)) (n - 4 * s) = slotAt d.disk start.toNat n := by
          rw [recordIn_slotAt _ _ (by omega), hslot]
        rw [hsize, Nat.zero_add, Nat.add_zero, hslot,
          scanSector_succ _ (3 - (n - 4 * s)), hrec, if_pos (h.stop (by omega))] at hpart
        refine ⟨reads.tail, ?_, fun hlt => by omega⟩
        rw [bind_of_ok hpart, hlast]
        rfl
    · rw [bind_of_ok (attempt_of_err (readSector_failed (d := { d with reads := reads }) hread))]
      obtain ⟨rest, rfl⟩ : ∃ rest, reads = .fail :: rest := by
        cases reads with
        | nil => cases hread
        | cons r rest => exact ⟨rest, congrArg (· :: rest) hread⟩
      refine ⟨rest, ?_, fun _ => ?_⟩
      · rw [found_fail rest hn]
        rfl
      · rw [List.idxOf_cons_self]
        rfl

/-- The log that `init` starts with. -/
theorem Numbered.init_reads (h : Numbered d.disk start.toNat sectors.toNat n)
    (hd : OnDisk start sectors d.capacity) : ∃ log reads',
      init start sectors d = (.ok log, { d with reads := reads' }) ∧ log.start = start ∧
        log.sectors = sectors ∧ log.ready = true ∧ log.nextSeq.toNat = found d.reads 0 n ∧
        (found d.reads 0 n < n → reads' = d.reads.drop (d.reads.idxOf .fail + 1)) := by
  have hle := h.le
  have hfound := found_le d.reads 0 n
  obtain ⟨capacity, hcap, hmul⟩ := mulU64_of_lt (a := sectors) (b := RECORDS_PER_SECTOR) hd.room d
  have h4 : RECORDS_PER_SECTOR.toNat = 4 := rfl
  rw [h4] at hmul
  obtain ⟨reads', hscan, hdrop⟩ := h.scan_reads hd sectors.toNat 0 d.reads (by omega) (by omega)
  have hinit : init start sectors d = _ := (bind_of_ok hcap).trans (bind_of_ok hscan)
  refine ⟨_, reads', hinit, rfl, rfl, rfl, ?_, hdrop⟩
  have hseq := h.tipAt_seq hd.room hfound
  have hmin : (tipAt d.disk start.toNat (found d.reads 0 n)).seq ≤ capacity :=
    UInt64.le_iff_toNat_le.mpr (by omega)
  show (if (tipAt d.disk start.toNat (found d.reads 0 n)).seq ≤ capacity
    then (tipAt d.disk start.toNat (found d.reads 0 n)).seq else capacity).toNat = _
  rw [if_pos hmin, hseq]

end Init

/-! ## Appending -/

section Append

variable {log log' : Log} {d d' : Device}

/-- A log that can be appended to on a disk whose writes go well. -/
structure Ready (log : Log) (d : Device) : Prop where
  onDisk : OnDisk log.start log.sectors d.capacity
  writes : d.writes = []
  ready : log.ready = true
  le : log.nextSeq.toNat ≤ log.sectors.toNat * 4

/-- Everything an `append` can do there: the log is full, the sector cannot be read, or
the record is written. -/
theorem Ready.append_reads (h : Ready log d) (e : Entry) :
    (log.sectors.toNat * 4 ≤ log.nextSeq.toNat ∧ ∃ m, append log e d = (.err m, d)) ∨
    (d.reads.headD .ok = .fail ∧ ∃ m, append log e d = (.err m, { d with reads := d.reads.tail })) ∨
    (log.nextSeq.toNat < log.sectors.toNat * 4 ∧ d.reads.headD .ok = .ok ∧
      ∃ log' d', append log e d = (.ok (log.nextSeq, log'), d') ∧ Ready log' d' ∧
        log.Next e log' ∧ d'.disk = log.put e d.disk ∧ d'.reads = d.reads.tail) := by
  have h4 : RECORDS_PER_SECTOR.toNat = 4 := rfl
  have hone : (1 : UInt64).toNat = 1 := rfl
  have hcap := h.onDisk.within
  have hfits := h.onDisk.fits
  have hroom := h.onDisk.room
  obtain ⟨capacity, hmul, hprod⟩ := mulU64_of_lt (a := log.sectors) (b := RECORDS_PER_SECTOR)
    hroom d
  rw [h4] at hprod
  have happended := appended log e d
  unfold append at happended ⊢
  dsimp only at happended ⊢
  rw [if_neg (by simp [h.ready]), bind_of_ok hmul] at happended ⊢
  by_cases hfull : log.sectors.toNat * 4 ≤ log.nextSeq.toNat
  · rw [if_pos (UInt64.le_iff_toNat_le.mpr (by omega))]
    exact .inl ⟨hfull, _, rfl⟩
  have hdiv : (log.nextSeq / RECORDS_PER_SECTOR).toNat = log.nextSeq.toNat / 4 := by
    rw [UInt64.toNat_div, h4]
  obtain ⟨sector, hsector, hsum⟩ := addU64_of_lt (a := log.start)
    (b := log.nextSeq / RECORDS_PER_SECTOR) (by omega) d
  have hlt : ¬log.nextSeq ≥ capacity := fun hge => by
    have := UInt64.le_iff_toNat_le.mp hge
    omega
  rw [if_neg hlt, bind_of_ok hsector] at happended ⊢
  rcases fate_cases (d.reads.headD .ok) with hread | hread
  · rw [bind_of_ok (readSector_reads (by omega) hread)] at happended ⊢
    generalize blit (d.disk sector.toNat)
      ((log.nextSeq % RECORDS_PER_SECTOR).toNat * RECORD_BYTES)
      (e.record log.nextSeq log.lastHash) = data at happended ⊢
    obtain ⟨next, hnext, hnextEq⟩ := addU64_of_lt (a := log.nextSeq) (b := 1) (by omega)
      (({ d with reads := d.reads.tail } : Device).store sector.toNat data)
    rw [bind_of_ok (writeSector_of_healthy (d := { d with reads := d.reads.tail }) data h.writes
      (by dsimp only; omega)), bind_of_ok hnext] at happended ⊢
    obtain ⟨-, hnextLog, hdisk⟩ := happended.ok _ _ rfl
    refine .inr (.inr ⟨Nat.lt_of_not_le hfull, hread, _, _, rfl, ⟨h.onDisk, h.writes, h.ready, ?_⟩,
      hnextLog, hdisk, rfl⟩)
    dsimp only
    omega
  · rw [bind_of_err (readSector_failed hread)]
    exact .inr (.inl ⟨hread, _, rfl⟩)

/-- What an append refuses leaves the log ready. -/
theorem Ready.refused (h : Ready log d) (reads : List ReadFate) :
    Ready log { d with reads := reads } := ⟨h.onDisk, h.writes, h.ready, h.le⟩

/-- The sectors of the log. -/
def InLog (log : Log) (x : ℕ) (_ : Sector) : Prop :=
  log.start.toNat ≤ x ∧ x < log.start.toNat + log.sectors.toNat

/-- Appends keep the records before the one that comes next, and write to the log only. -/
theorem appendAll_spec (es : List Entry) (h : Ready log d) :
    ∃ acks d', appendAll log es d = (.ok acks, d') ∧
      (∀ seq ∈ acks, log.nextSeq.toNat ≤ seq.toNat) ∧
      (∀ i < log.nextSeq.toNat, slotAt d'.disk log.start.toNat i = slotAt d.disk log.start.toNat i) ∧
      Frame (InLog log) d d' := by
  induction es generalizing log d with
  | nil => exact ⟨[], d, rfl, fun _ hseq => absurd hseq List.not_mem_nil, fun _ _ => rfl, .refl d⟩
  | cons e es ih =>
    have hframe : Frame (InLog log) d (append log e d).2 := Regions.touches_append log e d
    rcases h.append_reads e with ⟨-, m, hrun⟩ | ⟨-, m, hrun⟩ | ⟨-, -, log', d1, hrun, h1, hnext, hdisk, -⟩
    · rw [appendAll, bind_of_ok (attempt_of_err hrun)]
      exact ih h
    · rw [hrun] at hframe
      rw [appendAll, bind_of_ok (attempt_of_err hrun)]
      obtain ⟨acks, d', hall, hacks, hslots, hrest⟩ := ih (h.refused d.reads.tail)
      exact ⟨acks, d', hall, hacks, hslots, hframe.trans hrest⟩
    · rw [hrun] at hframe
      obtain ⟨acks, d', hall, hacks, hslots, hrest⟩ := ih h1
      obtain ⟨hstart, hsectors, -, hseq, -⟩ := hnext
      have hsame : InLog log' = InLog log := by
        unfold InLog
        rw [hstart, hsectors]
      rw [hstart] at hslots
      rw [hsame] at hrest
      refine ⟨log.nextSeq :: acks, d', ?_, fun seq hmem => ?_, fun i hi => ?_, hframe.trans hrest⟩
      · rw [appendAll, bind_of_ok (attempt_of_ok hrun)]
        dsimp only
        rw [bind_of_ok hall]
        rfl
      · rcases List.mem_cons.mp hmem with rfl | hmem
        · exact le_rfl
        · have := hacks seq hmem
          omega
      · rw [hslots i (by omega), hdisk]
        exact slotAt_putRecord_of_ne _ _ _ (by omega)

/-- Appends none of whose reads goes well write nothing. -/
theorem appendAll_refused (es : List Entry) (h : Ready log d)
    (hreads : ∀ k < es.length, d.reads[k]? = some .fail) :
    ∃ reads, appendAll log es d = (.ok [], { d with reads := reads }) := by
  induction es generalizing d with
  | nil => exact ⟨d.reads, rfl⟩
  | cons e es ih =>
    have hfirst := hreads 0 (by simp)
    obtain ⟨rest, hrest⟩ : ∃ rest, d.reads = .fail :: rest := by
      cases hr : d.reads with
      | nil =>
        rw [hr] at hfirst
        cases hfirst
      | cons r rest =>
        rw [hr] at hfirst
        cases hfirst
        exact ⟨rest, rfl⟩
    have hlater : ∀ k < es.length, rest[k]? = some .fail := fun k hk => by
      have := hreads (k + 1) (by simpa using hk)
      rwa [hrest, List.getElem?_cons_succ] at this
    rcases h.append_reads e with ⟨-, m, hrun⟩ | ⟨-, m, hrun⟩ | ⟨-, hok, -⟩
    · rw [appendAll, bind_of_ok (attempt_of_err hrun)]
      refine ih h fun k hk => hreads k (by simp only [List.length_cons]; omega)
    · rw [appendAll, bind_of_ok (attempt_of_err hrun)]
      exact ih (h.refused d.reads.tail) (by dsimp only; rwa [hrest])
    · rw [hrest] at hok
      cases hok

/-- Appends one of whose reads goes well give out the next number. -/
theorem appendAll_reuses (es : List Entry) (h : Ready log d)
    (hlt : log.nextSeq.toNat < log.sectors.toNat * 4)
    (hreads : ¬∀ k < es.length, d.reads[k]? = some .fail) :
    ∃ acks d', appendAll log es d = (.ok acks, d') ∧ log.nextSeq ∈ acks := by
  induction es generalizing d with
  | nil => exact absurd (fun k hk => absurd hk (Nat.not_lt_zero k)) hreads
  | cons e es ih =>
    rcases h.append_reads e with ⟨hfull, -⟩ | ⟨hfail, m, hrun⟩ | ⟨-, -, log', d1, hrun, h1, -⟩
    · omega
    · rw [appendAll, bind_of_ok (attempt_of_err hrun)]
      refine ih (h.refused d.reads.tail) fun hrest => hreads fun k hk => ?_
      cases hr : d.reads with
      | nil =>
        rw [hr] at hfail
        cases hfail
      | cons r rest =>
        rw [hr] at hfail
        cases k with
        | zero => exact congrArg some hfail
        | succ k =>
          have := hrest k (by simpa using hk)
          dsimp only at this
          rwa [hr] at this
    · obtain ⟨acks, d', hall, -⟩ := appendAll_spec es h1
      refine ⟨log.nextSeq :: acks, d', ?_, List.mem_cons_self⟩
      rw [appendAll, bind_of_ok (attempt_of_ok hrun)]
      dsimp only
      rw [bind_of_ok hall]
      rfl

end Append

end JungeyOs.Boot
