import JungeyOs.Audit.Log
import JungeyOs.Lib.Run
import Mathlib.Data.List.Nodup

/-!
# Appends of several threads

`audit::append` (`kernel/src/audit.rs`, lines 122–161) split where it releases the lock of the log
and at its disk read and its disk write. Any number of threads are in calls of it, and the disk may
refuse any read or write.

Results:
* `inv_step`: a step that is not overtaken keeps `Inv`.
* `undisturbed_of_sound`: a step after which the log is sound was not overtaken.
* `appends_sound_iff`: in a run the log is sound throughout exactly when no step is overtaken.
* `sameNumber_twice`: a run in which two calls return the same number.
-/

namespace JungeyOs.Audit.Appends

open JungeyOs.Bytes JungeyOs.Jlfs Blk HashChain

/-! ## The system -/

/-- Where a thread stands: the log as it found it under the lock, and what it does next. -/
inductive Pc
  | idle
  /-- reads the sector (line 151) -/
  | read (log : Log) (e : Entry)
  /-- writes it back (lines 152–153) -/
  | write (log : Log) (e : Entry) (buf : Sector)
  /-- counts the record (lines 155–158) and returns its number -/
  | store (log : Log) (e : Entry)

/-- `returned` are the numbers that the calls returned, the last one last, with the records that
they were made for. -/
structure Sys where
  capacity : ℕ
  disk : Disk
  log : Log
  pc : ℕ → Pc
  returned : List (UInt64 × Record)

inductive Act
  | append (t : ℕ) (e : Entry)
  | read (t : ℕ) (fate : ReadFate)
  | write (t : ℕ) (fate : WriteFate)
  | store (t : ℕ)

/-- The record that a call makes of an entry (lines 132–145). -/
def record (log : Log) (e : Entry) : Record := e.record log.nextSeq log.lastHash

/-- `sector` (line 148). -/
def sectorOf (log : Log) : ℕ := (log.start + log.nextSeq / RECORDS_PER_SECTOR).toNat

/-- The sector with the record in its slot (lines 149 and 152). -/
def filled (log : Log) (e : Entry) (buf : Sector) : Sector :=
  blit buf ((log.nextSeq % RECORDS_PER_SECTOR).toNat * RECORD_BYTES) (record log e)

namespace Sys

def goto (s : Sys) (t : ℕ) (p : Pc) : Sys := { s with pc := Function.update s.pc t p }

/-- A call's write reaches the disk. -/
def landed (s : Sys) (log : Log) (e : Entry) (buf : Sector) : Sys :=
  { s with disk := Function.update s.disk (sectorOf log) (filled log e buf) }

/-- A call counts its record and returns its number. -/
def counted (s : Sys) (t : ℕ) (log : Log) (e : Entry) : Sys :=
  { s.goto t .idle with
    log := ⟨s.log.start, s.log.sectors, log.nextSeq + 1,
      hashRecord (e.body log.nextSeq log.lastHash) log.lastHash, s.log.ready⟩
    returned := s.returned ++ [(log.nextSeq, record log e)] }

def step (s : Sys) : Act → Option Sys
  | .append t e =>
    match s.pc t with
    | .idle =>
      if s.log.ready = false ∨ s.log.nextSeq ≥ s.log.sectors * RECORDS_PER_SECTOR then some s
      else some (s.goto t (.read s.log e))
    | _ => none
  | .read t fate =>
    match s.pc t with
    | .read log e =>
      match fate with
      | .ok => some (s.goto t (.write log e (s.disk (sectorOf log))))
      | .fail => some (s.goto t .idle)
    | _ => none
  | .write t fate =>
    match s.pc t with
    | .write log e buf =>
      match fate with
      | .ok => some ((s.landed log e buf).goto t (.store log e))
      | .lost => some (s.goto t .idle)
      | .landed => some ((s.landed log e buf).goto t .idle)
      | _ => none
    | _ => none
  | .store t =>
    match s.pc t with
    | .store log e => some (s.counted t log e)
    | _ => none

/-- Slot `k` of the log. -/
def slot (s : Sys) (k : ℕ) : Record := slotAt s.disk s.log.start.toNat k

/-- The disk as `verify` finds it. -/
def device (s : Sys) : Device := { capacity := s.capacity, disk := s.disk }

end Sys

/-- A log that is intact, and no thread in a call. -/
structure Starts (s : Sys) : Prop where
  region : Region s.log.start s.log.sectors s.device
  intact : Intact s.disk s.log.start.toNat s.log.sectors.toNat s.log.nextSeq.toNat
  log : s.log.At s.disk s.log.nextSeq.toNat
  idle : ∀ t, s.pc t = .idle
  returned : s.returned = []

/-- The calls returned different numbers, their records are at their positions, and `verify` reports
the log intact. -/
structure Sound (s : Sys) : Prop where
  once : (s.returned.map Prod.fst).Nodup
  kept : ∀ p ∈ s.returned, s.slot p.1.toNat = p.2
  verified : verify s.log s.device = (.ok ⟨s.log.nextSeq.toNat, none⟩, s.device)

/-- A write that lands leaves the slots below `next_seq` as they are. A call counts its record while
`next_seq` is the number that it took and the record is in its slot. -/
def Undisturbed (s : Sys) : Act → Prop
  | .write t fate => ∀ log e buf, s.pc t = .write log e buf → fate = .ok ∨ fate = .landed →
      ∀ k < s.log.nextSeq.toNat, (s.landed log e buf).slot k = s.slot k
  | .store t => ∀ log e, s.pc t = .store log e →
      s.log.nextSeq = log.nextSeq ∧ s.slot log.nextSeq.toNat = record log e
  | _ => True

/-! ## The invariant -/

/-- What a call in progress knows of the log, of which the first `m` records are older than the run. -/
structure Took (s : Sys) (m : ℕ) (log : Log) : Prop where
  start : log.start = s.log.start
  sectors : log.sectors = s.log.sectors
  old : m ≤ log.nextSeq.toNat
  le : log.nextSeq.toNat ≤ s.log.nextSeq.toNat
  room : log.nextSeq.toNat < s.log.sectors.toNat * 4
  lastHash : log.nextSeq = s.log.nextSeq → log.lastHash = s.log.lastHash

def Pc.Valid (s : Sys) (m : ℕ) : Pc → Prop
  | .idle => True
  | .read log _ => Took s m log
  | .write log _ buf => Took s m log ∧
      ∀ k < m, k / 4 = log.nextSeq.toNat / 4 → recordIn buf (k % 4) = s.slot k
  | .store log _ => Took s m log

/-- The log had `m` records at the start. -/
structure Inv (s : Sys) (m : ℕ) : Prop where
  region : Region s.log.start s.log.sectors s.device
  intact : Intact s.disk s.log.start.toNat s.log.sectors.toNat s.log.nextSeq.toNat
  log : s.log.At s.disk s.log.nextSeq.toNat
  le : m ≤ s.log.nextSeq.toNat
  returned : s.returned.map (fun p => (p.1.toNat, p.2)) =
    (List.range' m (s.log.nextSeq.toNat - m)).map fun k => (k, s.slot k)
  valid : ∀ t, (s.pc t).Valid s m

section

variable {s s' : Sys} {m : ℕ} {t : ℕ} {log : Log} {e : Entry} {buf : Sector} {a : Act}

theorem inv_start (h : Starts s) : Inv s s.log.nextSeq.toNat := by
  refine ⟨h.region, h.intact, h.log, le_rfl, ?_, fun t => ?_⟩
  · rw [h.returned, Nat.sub_self]
    rfl
  · rw [h.idle t]
    trivial

/-- The invariant says everything. -/
theorem Inv.sound (h : Inv s m) : Sound s := by
  have hnumbers : (s.returned.map fun p => p.1.toNat) =
      List.range' m (s.log.nextSeq.toNat - m) := by
    have hmap := congrArg (List.map Prod.fst) h.returned
    rw [List.map_map, List.map_map] at hmap
    exact hmap.trans (List.map_id _)
  refine ⟨?_, fun p hp => ?_, Intact.verify (d := s.device) h.intact h.region h.log⟩
  · have hnodup : (s.returned.map fun p => p.1.toNat).Nodup := hnumbers ▸ List.nodup_range'
    have hcomp : (s.returned.map Prod.fst).map UInt64.toNat =
        s.returned.map fun p => p.1.toNat := List.map_map
    exact (hcomp ▸ hnodup).of_map UInt64.toNat
  · have hmem : (p.1.toNat, p.2) ∈ s.returned.map fun p => (p.1.toNat, p.2) :=
      List.mem_map_of_mem hp
    rw [h.returned] at hmem
    obtain ⟨k, -, hk⟩ := List.mem_map.mp hmem
    obtain ⟨hk, hrecord⟩ := Prod.mk.inj hk
    rw [← hk, hrecord]

/-- The record of a number that was handed out in the run was returned with it. -/
theorem Inv.mem_returned (h : Inv s m) {k : ℕ} (hm : m ≤ k) (hk : k < s.log.nextSeq.toNat) :
    ∃ p ∈ s.returned, p.1.toNat = k ∧ p.2 = s.slot k := by
  have hmem : (k, s.slot k) ∈ s.returned.map fun p => (p.1.toNat, p.2) := by
    rw [h.returned]
    exact List.mem_map_of_mem (List.mem_range'_1.mpr ⟨hm, by omega⟩)
  obtain ⟨p, hp, heq⟩ := List.mem_map.mp hmem
  exact ⟨p, hp, (Prod.mk.inj heq).1, (Prod.mk.inj heq).2⟩

theorem Took.sector (h : Took s m log) (hd : Region s.log.start s.log.sectors s.device) :
    sectorOf log = s.log.start.toNat + log.nextSeq.toNat / 4 := by
  have hcap := hd.capacity
  have hfits := hd.fits
  have hroom := h.room
  have h4 : RECORDS_PER_SECTOR.toNat = 4 := rfl
  rw [sectorOf, h.start, UInt64.toNat_add, UInt64.toNat_div, h4]
  exact Nat.mod_eq_of_lt (by omega)

/-- The slots after a write has landed: those of its sector are as the call read them, but for its
own one. -/
theorem Took.slot_landed (h : Took s m log) (hd : Region s.log.start s.log.sectors s.device) (k : ℕ) :
    (s.landed log e buf).slot k = if k / 4 = log.nextSeq.toNat / 4 then
      if k = log.nextSeq.toNat then record log e else recordIn buf (k % 4) else s.slot k := by
  have hmod : (log.nextSeq % RECORDS_PER_SECTOR).toNat = log.nextSeq.toNat % 4 := UInt64.toNat_mod ..
  have hend (j : ℕ) : j % 4 * RECORD_BYTES + RECORD_BYTES ≤ SECTOR_SIZE := by
    unfold RECORD_BYTES SECTOR_SIZE
    omega
  show slotAt (Function.update s.disk (sectorOf log) (filled log e buf)) s.log.start.toNat k = _
  rw [h.sector hd, slotAt]
  by_cases hsec : k / 4 = log.nextSeq.toNat / 4
  · rw [if_pos hsec, hsec, Function.update_self, filled, hmod, recordIn]
    by_cases hk : k = log.nextSeq.toNat
    · rw [if_pos hk, hk, slice_blit_self _ _ _ (hend _)]
    · rw [if_neg hk, slice_blit_of_disjoint]
      · rfl
      · unfold RECORD_BYTES
        omega
  · rw [if_neg hsec, Function.update_of_ne (by omega)]
    rfl

/-! ## What the steps keep -/

/-- What a step has to keep that counts no record, where thread `t` goes to `p`. -/
theorem Inv.move (h : Inv s m) {p : Pc} (hcap : s'.capacity = s.capacity) (hlog : s'.log = s.log)
    (hpc : s'.pc = Function.update s.pc t p) (hreturned : s'.returned = s.returned)
    (hslot : ∀ k < s.log.nextSeq.toNat, s'.slot k = s.slot k) (hvalid : p.Valid s m) : Inv s' m := by
  have hle := h.le
  have hslots : slots s'.disk s.log.start.toNat 0 s.log.nextSeq.toNat =
      slots s.disk s.log.start.toNat 0 s.log.nextSeq.toNat := by
    apply slots_congr
    intro k _ hk
    have hsame := hslot k (by omega)
    rwa [Sys.slot, hlog] at hsame
  have htook (log : Log) (ht : Took s m log) : Took s' m log := by
    refine ⟨?_, ?_, ht.old, ?_, ?_, ?_⟩ <;> rw [hlog]
    exacts [ht.start, ht.sectors, ht.le, ht.room, ht.lastHash]
  have hkeep (q : Pc) (hq : q.Valid s m) : q.Valid s' m := by
    cases q with
    | idle => trivial
    | read log e => exact htook log hq
    | write log e buf =>
      refine ⟨htook log hq.1, fun k hk hsec => ?_⟩
      rw [hslot k (by omega)]
      exact hq.2 k hk hsec
    | store log e => exact htook log hq
  refine ⟨?_, ?_, ?_, ?_, ?_, ?_⟩
  · rw [hlog, Sys.device, hcap]
    exact ⟨h.region.reads, h.region.capacity, h.region.fits, h.region.room⟩
  · rw [hlog]
    refine h.intact.congr fun k hk => ?_
    have hsame := hslot k hk
    rwa [Sys.slot, hlog] at hsame
  · rw [hlog]
    exact ⟨h.log.ready, h.log.nextSeq, by rw [hslots]; exact h.log.lastHash⟩
  · rw [hlog]
    exact h.le
  · rw [hlog, hreturned, h.returned]
    apply List.map_congr_left
    intro k hk
    have hlt := (List.mem_range'_1.mp hk).2
    rw [hslot k (by omega)]
  · rw [hpc]
    exact (Function.forall_update_iff s.pc fun _ q => q.Valid s' m).mpr
      ⟨hkeep p hvalid, fun j _ => hkeep _ (h.valid j)⟩

/-- The record of a call is counted. -/
theorem Inv.count (h : Inv s m) (hpc : s.pc t = .store log e)
    (hseq : s.log.nextSeq = log.nextSeq) (hslot : s.slot log.nextSeq.toNat = record log e) :
    Inv (s.counted t log e) m := by
  have hvalid := h.valid t
  rw [hpc] at hvalid
  have hroom := hvalid.room
  have hmul := h.region.room
  have hone : (1 : UInt64).toNat = 1 := rfl
  have hle := h.le
  have hnext : (log.nextSeq + 1).toNat = s.log.nextSeq.toNat + 1 := by
    rw [hseq, UInt64.toNat_add, hone]
    exact Nat.mod_eq_of_lt (by omega)
  have hprev : log.lastHash = links.last 0 (slots s.disk s.log.start.toNat 0 s.log.nextSeq.toNat) := by
    rw [hvalid.lastHash hseq.symm]
    exact h.log.lastHash
  have hlast : slotAt s.disk s.log.start.toNat s.log.nextSeq.toNat =
      e.record log.nextSeq log.lastHash := by
    rw [hseq]
    exact hslot
  have hintact := h.intact.extend (by rw [hseq]; exact hroom) (congrArg UInt64.toNat hseq.symm)
    hprev hlast
  have hnextSeq : (s.counted t log e).log.nextSeq = log.nextSeq + 1 := rfl
  have hreturned : (s.counted t log e).returned = s.returned ++ [(log.nextSeq, record log e)] := rfl
  have hsame (k : ℕ) : (s.counted t log e).slot k = s.slot k := rfl
  have htook (log' : Log) (ht : Took s m log') : Took (s.counted t log e) m log' := by
    have hle' := ht.le
    refine ⟨ht.start, ht.sectors, ht.old, ?_, ht.room, fun heq => ?_⟩
    · rw [hnextSeq, hnext]
      omega
    · rw [heq, hnextSeq, hnext] at hle'
      omega
  refine ⟨⟨h.region.reads, h.region.capacity, h.region.fits, h.region.room⟩, ?_, ⟨h.log.ready, rfl, ?_⟩,
    ?_, ?_, ?_⟩
  · rw [hnextSeq, hnext]
    exact hintact
  · rw [hnextSeq, hnext]
    have hstored : links.stored (e.record log.nextSeq log.lastHash) =
        hashRecord (e.body log.nextSeq log.lastHash) log.lastHash :=
      getU64_hash e log.nextSeq log.lastHash
    have hend : links.last 0 (slots s.disk s.log.start.toNat 0 (s.log.nextSeq.toNat + 1)) =
        hashRecord (e.body log.nextSeq log.lastHash) log.lastHash := by
      rw [slots_concat, Format.last_concat, hlast, hstored]
    have hlastHash : (s.counted t log e).log.lastHash =
        hashRecord (e.body log.nextSeq log.lastHash) log.lastHash := by
      dsimp only [Sys.counted]
    have hdisk : (s.counted t log e).disk = s.disk := rfl
    have hstart : (s.counted t log e).log.start = s.log.start := rfl
    rw [hlastHash, hdisk, hstart, hend]
  · rw [hnextSeq, hnext]
    omega
  · have hlen : s.log.nextSeq.toNat + 1 - m = s.log.nextSeq.toNat - m + 1 := by omega
    have hend : m + (s.log.nextSeq.toNat - m) = s.log.nextSeq.toNat := by omega
    simp only [hsame]
    rw [hreturned, hnextSeq, hnext, List.map_append, h.returned, hlen, List.range'_concat,
      List.map_append, Nat.one_mul, hend, List.map_singleton, List.map_singleton, hseq, hslot]
  · refine (Function.forall_update_iff s.pc fun _ q => q.Valid (s.counted t log e) m).mpr
      ⟨trivial, fun j _ => ?_⟩
    have hj := h.valid j
    cases hq : s.pc j with
    | idle => trivial
    | read log' e' =>
      rw [hq] at hj
      exact htook log' hj
    | write log' e' buf' =>
      rw [hq] at hj
      exact ⟨htook log' hj.1, hj.2⟩
    | store log' e' =>
      rw [hq] at hj
      exact htook log' hj

theorem inv_step (h : Inv s m) (hok : Undisturbed s a) (hs : s.step a = some s') : Inv s' m := by
  cases a with
  | append t e =>
    rw [Sys.step] at hs
    cases hpc : s.pc t with
    | idle =>
      rw [hpc] at hs
      dsimp only at hs
      split_ifs at hs with hrefused
      · cases hs
        exact h
      · cases hs
        rw [not_or, ge_iff_le, UInt64.not_le] at hrefused
        have hcapacity : (s.log.sectors * RECORDS_PER_SECTOR).toNat = s.log.sectors.toNat * 4 :=
          (UInt64.toNat_mul ..).trans (Nat.mod_eq_of_lt h.region.room)
        have hroom := UInt64.lt_iff_toNat_lt.mp hrefused.2
        rw [hcapacity] at hroom
        exact h.move rfl rfl rfl rfl (fun _ _ => rfl) ⟨rfl, rfl, h.le, le_rfl, hroom, fun _ => rfl⟩
    | _ => rw [hpc] at hs; cases hs
  | read t fate =>
    rw [Sys.step] at hs
    cases hpc : s.pc t with
    | read log e =>
      have hvalid := h.valid t
      rw [hpc] at hs hvalid
      cases fate with
      | ok =>
        cases hs
        refine h.move rfl rfl rfl rfl (fun _ _ => rfl) ⟨hvalid, fun k _ hsec => ?_⟩
        rw [hvalid.sector h.region, ← hsec]
        rfl
      | fail =>
        cases hs
        exact h.move rfl rfl rfl rfl (fun _ _ => rfl) trivial
    | _ => rw [hpc] at hs; cases hs
  | write t fate =>
    rw [Sys.step] at hs
    cases hpc : s.pc t with
    | write log e buf =>
      have hvalid := h.valid t
      rw [hpc] at hs hvalid
      cases fate with
      | ok =>
        cases hs
        exact h.move rfl rfl rfl rfl (hok log e buf hpc (.inl rfl)) hvalid.1
      | lost =>
        cases hs
        exact h.move rfl rfl rfl rfl (fun _ _ => rfl) trivial
      | landed =>
        cases hs
        exact h.move rfl rfl rfl rfl (hok log e buf hpc (.inr rfl)) trivial
      | _ => cases hs
    | _ => rw [hpc] at hs; cases hs
  | store t =>
    rw [Sys.step] at hs
    cases hpc : s.pc t with
    | store log e =>
      rw [hpc] at hs
      cases hs
      exact h.count hpc (hok log e hpc).1 (hok log e hpc).2
    | _ => rw [hpc] at hs; cases hs

/-- A step after which the log is sound was not overtaken. -/
theorem undisturbed_of_sound (h : Inv s m) (hs : s.step a = some s') (hsound : Sound s') :
    Undisturbed s a := by
  cases a with
  | append t e => trivial
  | read t fate => trivial
  | write t fate =>
    intro log e buf hpc hfate k hk
    have hvalid := h.valid t
    rw [hpc] at hvalid
    have hs' : s'.disk = (s.landed log e buf).disk ∧ s'.log = s.log ∧ s'.returned = s.returned := by
      rw [Sys.step, hpc] at hs
      rcases hfate with rfl | rfl <;> cases hs <;> exact ⟨rfl, rfl, rfl⟩
    by_cases hm : m ≤ k
    · -- the record was returned in the run
      obtain ⟨p, hp, hnumber, hrecord⟩ := h.mem_returned hm hk
      have hkept := hsound.kept p (hs'.2.2 ▸ hp)
      rw [hnumber, hrecord, Sys.slot, hs'.1, hs'.2.1] at hkept
      exact hkept
    · -- the record is older, and the call read it as it is
      have hold := hvalid.1.old
      rw [hvalid.1.slot_landed h.region]
      by_cases hsec : k / 4 = log.nextSeq.toNat / 4
      · rw [if_pos hsec, if_neg (by omega)]
        exact hvalid.2 k (by omega) hsec
      · rw [if_neg hsec]
  | store t =>
    intro log e hpc
    have hvalid := h.valid t
    rw [hpc] at hvalid
    rw [Sys.step, hpc] at hs
    cases hs
    have hkept := hsound.kept (log.nextSeq, record log e) (List.mem_append_right _ List.mem_cons_self)
    refine ⟨?_, hkept⟩
    by_contra hne
    have hlt : log.nextSeq.toNat < s.log.nextSeq.toNat :=
      Nat.lt_of_le_of_ne hvalid.le fun heq => hne (UInt64.toNat_inj.mp heq).symm
    obtain ⟨p, hp, hnumber, -⟩ := h.mem_returned hvalid.old hlt
    have honce := hsound.once
    have hmap : (s.counted t log e).returned.map Prod.fst =
        s.returned.map Prod.fst ++ [log.nextSeq] := List.map_append
    rw [hmap] at honce
    refine (List.nodup_append.mp honce).2.2 p.1 (List.mem_map_of_mem hp) log.nextSeq
      List.mem_cons_self (UInt64.toNat_inj.mp hnumber)

end

/-! ## Runs -/

/-- **Appends of several threads.** In a run the calls return different numbers, their records are on
the disk and the log is intact throughout exactly when no write or count of a call was overtaken by
another call. -/
theorem appends_sound_iff {s : Sys} (hs : Starts s) (as : List Act) :
    Run.Throughout Sys.step Sound s as ↔ Run.Meets Sys.step Undisturbed s as := by
  have hinv := inv_start hs
  refine Run.throughout_iff_meets (fun s' => Inv s' s.log.nextSeq.toNat)
    (fun _ _ _ h hok hstep => inv_step h hok hstep)
    (fun _ _ _ h _ hstep => ⟨undisturbed_of_sound h hstep, fun hok => (inv_step h hok hstep).sound⟩)
    (fun s' a _ hnone => ?_) hinv hinv.sound as
  -- a step that is not enabled writes and counts nothing
  cases a with
  | append t e => trivial
  | read t fate => trivial
  | write t fate =>
    intro log e buf hpc hfate
    rw [Sys.step, hpc] at hnone
    rcases hfate with rfl | rfl <;> cases hnone
  | store t =>
    intro log e hpc
    rw [Sys.step, hpc] at hnone
    cases hnone

/-- An empty log of one sector. -/
def empty : Sys :=
  ⟨1, fun _ => blankSector, ⟨0, 1, 0, 0, true⟩, fun _ => .idle, []⟩

theorem starts_empty : Starts empty :=
  ⟨⟨rfl, le_rfl, by decide, by decide⟩, Intact.empty, ⟨rfl, rfl, rfl⟩, fun _ => rfl, rfl⟩

def entry (name : String) : Entry := ⟨0, "kernel", 0, name, ""⟩

/-- A call that runs after another one. -/
theorem appends_sound_iff_inTurn :
    Run.Throughout Sys.step Sound empty
        [.append 0 (entry "a"), .read 0 .ok, .write 0 .ok, .store 0, .append 1 (entry "b")] ↔
      Run.Meets Sys.step Undisturbed empty
        [.append 0 (entry "a"), .read 0 .ok, .write 0 .ok, .store 0, .append 1 (entry "b")] :=
  appends_sound_iff starts_empty _

/-- Two calls take the number 0 before either of them counts its record. -/
theorem sameNumber_twice : ∃ s, Run.exec Sys.step empty
      [.append 0 (entry "a"), .append 1 (entry "b"), .read 0 .ok, .read 1 .ok, .write 0 .ok,
        .write 1 .ok, .store 0, .store 1] = some s ∧ ¬Sound s := by
  have hrun : (Run.exec Sys.step empty
      [.append 0 (entry "a"), .append 1 (entry "b"), .read 0 .ok, .read 1 .ok, .write 0 .ok,
        .write 1 .ok, .store 0, .store 1]).map (fun s => s.returned.map Prod.fst) =
      some [0, 0] := by
    rfl
  obtain ⟨s, hs, hnumbers⟩ := Option.map_eq_some_iff.mp hrun
  refine ⟨s, hs, fun hsound => ?_⟩
  have honce := hsound.once
  rw [hnumbers] at honce
  exact absurd honce (by decide)

end JungeyOs.Audit.Appends
