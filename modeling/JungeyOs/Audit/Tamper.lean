import JungeyOs.Audit.Log

/-!
# Altering a record on the disk

One byte of one record of an intact log is changed while the machine is off, and the next
boot recovers the length of the log and the last hash from the altered bytes; or it is
changed while the kernel runs, which still knows them.

Results:
* `not_follows_tampered`: a record with a byte behind its magic number changed does not
  verify.
* `appends_keep`: no append writes into a slot below the next one.
* `tampering_detected`: exactly which changes the next boot notices.
* `verify_names_altered`: without a boot in between every change is noticed, and the altered
  record is named.
-/

namespace JungeyOs.Audit

open JungeyOs.Bytes JungeyOs.Jlfs Blk HashChain

/-- The disk with byte `pos` of record `k` replaced by `b`. -/
def tamper (disk : Disk) (start k pos : ℕ) (b : UInt8) : Disk :=
  Function.update disk (start + k / 4)
    (blit (disk (start + k / 4)) (k % 4 * RECORD_BYTES + pos) (Vector.replicate 1 b))

/-- Appends by a running kernel, until one stops it. -/
def appends : Log → List Entry → Device → Device
  | _, [], d => d
  | log, e :: es, d =>
    match append log e d with
    | (.ok (_, log), d) => appends log es d
    | (.err _, d) => appends log es d
    | (.halted _, d) => d

/-- After the next `init`, `verify` finds something bad, and no append ever writes into
one of the `n` records. -/
def Detected (start sectors : UInt64) (n : ℕ) (d : Device) : Prop :=
  ∃ log v, init start sectors d = (.ok log, d) ∧ verify log d = (.ok v, d) ∧ v.firstBad ≠ none ∧
    ∀ es d', d'.disk = d.disk → ∀ k < n,
      slotAt (appends log es d').disk start.toNat k = slotAt d.disk start.toNat k

/-! ## One byte of a record -/

section Byte

variable {record : Record} {pos : ℕ} {b : UInt8}

theorem slice_blit_ne {m : ℕ} {v : Vector UInt8 m} {first len : ℕ} (hlt : pos < m)
    (hb : v[pos] ≠ b) (h1 : first ≤ pos) (h2 : pos < first + len) :
    slice (blit v pos #v[b]) first len ≠ slice v first len := by
  intro heq
  have hk : pos - first < len := by omega
  have hget : (slice (blit v pos #v[b]) first len)[pos - first] = (slice v first len)[pos - first] := by
    rw [heq]
  have hpos : first + (pos - first) = pos := by omega
  rw [getElem_slice _ _ hk, getElem_slice _ _ hk, hpos, Vector.getElem?_eq_getElem hlt,
    Vector.getElem?_eq_getElem hlt, Option.getD_some, Option.getD_some, getElem_blit _ _ _ hlt,
    if_pos le_rfl, Nat.sub_self] at hget
  exact hb hget.symm

/-- A record with one byte changed does not verify where it did. -/
theorem not_follows_tampered {prev : UInt64} (hr : links.Follows prev record)
    (hpos : pos < RECORD_BYTES) (hb : record[pos] ≠ b) :
    ¬links.Follows prev (blit record pos #v[b]) := by
  have hrecord : RECORD_BYTES = 128 := rfl
  have hhash : OFF_HASH = 120 := rfl
  intro hf
  obtain ⟨-, -, hold⟩ := follows_iff.mp hr
  obtain ⟨-, -, hnew⟩ := follows_iff.mp hf
  by_cases hlt : pos < OFF_HASH
  · -- the hash of the new bytes is not the one stored
    rw [getU64_blit _ (.inr (by omega)), ← hold, blit_singleton] at hnew
    refine hashRecord_set_ne hlt (fun heq => hb ?_) prev hnew
    rw [Vector.getElem?_eq_getElem hpos] at heq
    exact Option.some.inj heq
  · -- the hash stored is not that of the bytes
    rw [hashRecord_congr (slice_blit_of_disjoint _ _ _ _ (.inl (by omega))) prev, hold] at hnew
    exact slice_blit_ne hpos hb (by omega) (by omega) (slice_of_getU64 hnew.symm)

/-- A record with a byte of its magic number changed is none. -/
theorem not_magic_tampered (hr : getU64 record OFF_MAGIC = MAGIC) (h8 : pos < 8)
    (hpos : pos < RECORD_BYTES) (hb : record[pos] ≠ b) :
    getU64 (blit record pos #v[b]) OFF_MAGIC ≠ MAGIC := by
  intro hmagic
  have hoff : OFF_MAGIC = 0 := rfl
  exact slice_blit_ne hpos hb (by omega) (by omega)
    (slice_of_getU64 (hmagic.trans hr.symm))

end Byte

/-! ## The altered log -/

section Tamper

variable {disk : Disk} {start sectors n k pos : ℕ} {b : UInt8}

theorem slotAt_tamper_self (disk : Disk) (start k pos : ℕ) (b : UInt8) :
    slotAt (tamper disk start k pos b) start k = blit (slotAt disk start k) pos #v[b] := by
  rw [slotAt, tamper, Function.update_self, recordIn, slice_blit_inside _ _ _ ?_]
  · rfl
  · unfold RECORD_BYTES SECTOR_SIZE
    omega

theorem slotAt_tamper_of_ne (hpos : pos < RECORD_BYTES) {j : ℕ} (h : j ≠ k) :
    slotAt (tamper disk start k pos b) start j = slotAt disk start j := by
  unfold slotAt tamper
  by_cases hsec : j / 4 = k / 4
  · have hdisj : j % 4 * RECORD_BYTES + RECORD_BYTES ≤ k % 4 * RECORD_BYTES + pos ∨
        k % 4 * RECORD_BYTES + pos + 1 ≤ j % 4 * RECORD_BYTES := by
      unfold RECORD_BYTES at *
      omega
    rw [hsec, Function.update_self, recordIn, recordIn, slice_blit_of_disjoint _ _ _ _ hdisj]
  · rw [Function.update_of_ne (by omega)]

/-- The records before the altered one are as they were. -/
theorem Intact.tamper (h : Intact disk start sectors n) (hk : k < n) (hpos : pos < RECORD_BYTES) :
    Intact (tamper disk start k pos b) start sectors k :=
  (h.take hk.le).congr fun _ hj => slotAt_tamper_of_ne hpos (by omega)

/-- No append writes into a slot below the next one. -/
theorem appends_keep {es : List Entry} {log : Log} {d : Device} (hn : n ≤ log.nextSeq.toNat) :
    ∀ k < n, slotAt (appends log es d).disk log.start.toNat k =
      slotAt d.disk log.start.toNat k := by
  intro k hk
  induction es generalizing log d with
  | nil => rfl
  | cons e es ih =>
    have hcases := appended log e d
    have hput : slotAt (log.put e d.disk) log.start.toNat k = slotAt d.disk log.start.toNat k :=
      slotAt_putRecord_of_ne _ _ _ (by omega)
    have hone : slotAt (append log e d).2.disk log.start.toNat k = slotAt d.disk log.start.toNat k := by
      rcases hcases.disk with hd | hd <;> rw [hd]
      exact hput
    unfold appends
    match hrun : append log e d with
    | (.ok (seq, log'), d') =>
      rw [hrun] at hcases hone
      obtain ⟨-, hnext, -⟩ := hcases.ok _ _ rfl
      have := hnext.nextSeq
      have hrest := @ih log' d' (by omega)
      rw [hnext.start] at hrest
      exact hrest.trans hone
    | (.err msg, d') =>
      rw [hrun] at hone
      exact (ih hn).trans hone
    | (.halted why, d') =>
      rw [hrun] at hone
      exact hone

/-- A check that reaches the altered record finds it. -/
theorem firstBad_tampered (h : Intact disk start sectors n) (hk : k < n) (hpos : pos < RECORD_BYTES)
    (hb : (slotAt disk start k)[pos] ≠ b) {count : ℕ} (hcount : k < count) :
    links.firstBad 0 (slots (tamper disk start k pos b) start 0 count) = some k := by
  have hsplit : slots (tamper disk start k pos b) start 0 count =
      slots (tamper disk start k pos b) start 0 k ++ slotAt (tamper disk start k pos b) start k ::
        slots (tamper disk start k pos b) start (k + 1) (count - k - 1) := by
    have hsum : count = k + (count - k - 1 + 1) := by omega
    conv_lhs => rw [hsum, slots_append, Nat.zero_add, slots_succ]
  have hold : slots (tamper disk start k pos b) start 0 k = slots disk start 0 k :=
    slots_congr fun j _ hj => slotAt_tamper_of_ne hpos (by omega)
  have hnot := not_follows_tampered (h.follows hk) hpos hb
  rw [hsplit, Format.firstBad_break, length_slots]
  · exact (h.tamper hk hpos).chain
  · rw [hold, slotAt_tamper_self]
    exact hnot

end Tamper

section Main

variable {disk : Disk} {start sectors : UInt64} {d : Device} {n k pos : ℕ} {b : UInt8}

/-- Only a byte of its number changes the number that is read from a record. -/
theorem getU64_seq_tampered (record : Record) (hpos : ¬(8 ≤ pos ∧ pos < 16)) :
    getU64 (blit record pos #v[b]) OFF_SEQ = getU64 record OFF_SEQ := by
  have hoff : OFF_SEQ = 8 := rfl
  rcases Nat.lt_or_ge pos 8 with hlt | hge
  · exact getU64_blit _ (.inr (by omega))
  · exact getU64_blit _ (.inl (by omega))

/-- A change of a magic number cuts the log off in front of its record. -/
theorem undetected_magic (h : Intact disk start.toNat sectors.toNat n) (hk : k < n) (h8 : pos < 8)
    (hpos : pos < RECORD_BYTES) (hb : (slotAt disk start.toNat k)[pos] ≠ b)
    (hd : Region start sectors d) (hdisk : d.disk = tamper disk start.toNat k pos b) :
    ¬Detected start sectors n d := by
  have hrecord : RECORD_BYTES = 128 := rfl
  have hcut : Intact d.disk start.toNat sectors.toNat k := by
    rw [hdisk]
    exact h.tamper hk (by omega)
  obtain ⟨log, hinit, hstart, hsectors, hat⟩ := hcut.init hd fun _ => by
    rw [hdisk, slotAt_tamper_self]
    exact not_magic_tampered (h.magic hk) h8 hpos hb
  rintro ⟨log', v, hinit', hverify, hbad, -⟩
  cases hinit.symm.trans hinit'
  have hclean := Intact.verify (by rw [hstart, hsectors]; exact hcut) (by rw [hstart, hsectors]; exact hd)
    hat
  cases hverify.symm.trans hclean
  exact hbad rfl

/-- The number that is read from the altered record. -/
def seqRead (d : Device) (start : UInt64) (k : ℕ) : ℕ :=
  (getU64 (slotAt d.disk start.toNat k) OFF_SEQ).toNat

theorem magic_tampered (h : Intact disk start.toNat sectors.toNat n) (hk : k < n) (hpos : 8 ≤ pos)
    (hdisk : d.disk = tamper disk start.toNat k pos b) :
    getU64 (slotAt d.disk start.toNat k) OFF_MAGIC = MAGIC := by
  have hoff : OFF_MAGIC = 0 := rfl
  rw [hdisk, slotAt_tamper_self, getU64_blit _ (.inl (by omega))]
  exact h.magic hk

/-- A number that cannot be counted on from stops the kernel. -/
theorem undetected_overflow (h : Intact disk start.toNat sectors.toNat n) (hk : k < n)
    (hpos : 8 ≤ pos) (hlt : pos < RECORD_BYTES) (hd : Region start sectors d)
    (hdisk : d.disk = tamper disk start.toNat k pos b) (hseq : 2 ^ 64 ≤ seqRead d start k + 1) :
    ¬Detected start sectors n d := by
  have hle := h.le
  have hcounted : Counted d.disk start.toNat sectors.toNat k := by
    rw [hdisk]
    exact (h.tamper hk hlt).counted hd.room
  have hpanic := Overflows.init_eq ⟨hcounted, by omega, magic_tampered h hk hpos hdisk, hseq⟩ hd
  rintro ⟨log, v, hinit, -⟩
  cases hinit.symm.trans hpanic

theorem toNat_min (a b : UInt64) : (min a b).toNat = min a.toNat b.toNat := by
  rcases Nat.le_total a.toNat b.toNat with hle | hle
  · have hmin : min a b = a := if_pos (UInt64.le_iff_toNat_le.mpr hle)
    rw [hmin, Nat.min_eq_left hle]
  · rcases Nat.lt_or_ge b.toNat a.toNat with hlt | hge
    · have hmin : min a b = b := if_neg fun h => by
        have := UInt64.le_iff_toNat_le.mp h
        omega
      rw [hmin, Nat.min_eq_right hle]
    · have hab : a = b := UInt64.toNat_inj.mp (by omega)
      rw [hab, Nat.min_self]
      exact congrArg UInt64.toNat (if_pos (UInt64.le_refl _))

/-- Every other change leaves the records countable; the last one says how many there
are. -/
theorem init_tampered (h : Intact disk start.toNat sectors.toNat n)
    (hstop : n < sectors.toNat * 4 → getU64 (slotAt disk start.toNat n) OFF_MAGIC ≠ MAGIC)
    (hk : k < n) (hpos : 8 ≤ pos) (hlt : pos < RECORD_BYTES) (hd : Region start sectors d)
    (hdisk : d.disk = tamper disk start.toNat k pos b) (hseq : seqRead d start k + 1 < 2 ^ 64) :
    ∃ log, init start sectors d = (.ok log, d) ∧ log.start = start ∧
      log.nextSeq.toNat = min (if k + 1 = n then seqRead d start k + 1 else n)
        (sectors.toNat * 4) := by
  have hone : (1 : UInt64).toNat = 1 := rfl
  have hroom := hd.room
  have hle := h.le
  have hold : ∀ j, j ≠ k → slotAt d.disk start.toNat j = slotAt disk start.toNat j := fun j hj => by
    rw [hdisk, slotAt_tamper_of_ne hlt hj]
  have hrec : Recorded d.disk start.toNat sectors.toNat n := by
    refine ⟨⟨hle, fun j hj => ?_, fun j hj => ?_⟩, fun hn => ?_⟩
    · by_cases hjk : j = k
      · rw [hjk]
        exact magic_tampered h hk hpos hdisk
      · rw [hold j hjk]
        exact h.magic hj
    · by_cases hjk : j = k
      · rw [hjk]
        exact hseq
      · rw [hold j hjk, h.seq j hj]
        omega
    · rw [hold n (by omega)]
      exact hstop hn
  obtain ⟨capacity, hcap, hinit⟩ := init_eq hrec hd
  refine ⟨_, hinit, rfl, ?_⟩
  dsimp only
  rw [toNat_min, hcap]
  congr 1
  obtain ⟨m, rfl⟩ : ∃ m, n = m + 1 := ⟨n - 1, by omega⟩
  rw [tipAt, UInt64.toNat_add, hone]
  split_ifs with hkm
  · have hkm : m = k := by omega
    rw [hkm]
    exact Nat.mod_eq_of_lt hseq
  · rw [hold m (by omega), h.seq m (by omega), Nat.mod_eq_of_lt (by omega)]

/-- One byte of one record of an intact log of `n` records is changed while the machine
is off. The next boot notices it, and no append writes over any of the records, if and
only if the byte is not one of the magic number, and the number then read from the
record can be counted on from and, for the last record, is not below its place. -/
theorem tampering_detected (h : Intact disk start.toNat sectors.toNat n)
    (hstop : n < sectors.toNat * 4 → getU64 (slotAt disk start.toNat n) OFF_MAGIC ≠ MAGIC)
    (hk : k < n) (hpos : pos < RECORD_BYTES) (hb : (slotAt disk start.toNat k)[pos] ≠ b)
    (hd : Region start sectors d) (hdisk : d.disk = tamper disk start.toNat k pos b) :
    Detected start sectors n d ↔
      8 ≤ pos ∧ seqRead d start k + 1 < 2 ^ 64 ∧ (k + 1 = n → k ≤ seqRead d start k) := by
  have hle := h.le
  constructor
  · intro hdet
    have h8 : 8 ≤ pos := by
      by_contra hlt
      exact undetected_magic h hk (by omega) hpos hb hd hdisk hdet
    have hseq : seqRead d start k + 1 < 2 ^ 64 := by
      by_contra hge
      exact undetected_overflow h hk h8 hpos hd hdisk (by omega) hdet
    refine ⟨h8, hseq, fun hlast => ?_⟩
    by_contra hlow
    -- the log seems to end before the altered record
    obtain ⟨log, hinit, hstart, hnext⟩ := init_tampered h hstop hk h8 hpos hd hdisk hseq
    rw [if_pos hlast] at hnext
    obtain ⟨log', v, hinit', hverify, hbad, -⟩ := hdet
    cases hinit.symm.trans hinit'
    have hcut : Intact d.disk start.toNat sectors.toNat log.nextSeq.toNat := by
      rw [hdisk]
      exact (h.tamper hk hpos).take (by omega)
    have hchain := hcut.chain
    have hlog : Region log.start sectors d := by rw [hstart]; exact hd
    have hclean := verify_eq hlog (by omega)
    rw [hstart, Format.firstBad_eq_none_iff.mpr hchain] at hclean
    cases hverify.symm.trans hclean
    exact hbad rfl
  · rintro ⟨h8, hseq, hlast⟩
    obtain ⟨log, hinit, hstart, hnext⟩ := init_tampered h hstop hk h8 hpos hd hdisk hseq
    have hn : n ≤ log.nextSeq.toNat := by
      rw [hnext]
      split_ifs with hkn
      · have := hlast hkn
        omega
      · omega
    have hlog : Region log.start sectors d := by rw [hstart]; exact hd
    have hverify := verify_eq hlog (by omega)
    rw [hstart, hdisk, firstBad_tampered h hk hpos hb (by omega)] at hverify
    refine ⟨log, _, hinit, hverify, by simp, fun es d' hd' j hj => ?_⟩
    have hkeep : slotAt (appends log es d').disk log.start.toNat j =
        slotAt d'.disk log.start.toNat j := appends_keep hn j hj
    rwa [hstart, hd'] at hkeep

end Main

/-! ## While the kernel runs (lines 226–242) -/

/-- `corrupt_for_test` (lines 229–242). -/
def corruptForTest (log : Log) (seq : UInt64) (byte : ℕ) : Blk Unit := do
  let sector ← Blk.addU64 log.start (seq / RECORDS_PER_SECTOR)
  let slot := (seq % RECORDS_PER_SECTOR).toNat
  let buf ← Blk.readSector sector.toNat
  let pos := slot * RECORD_BYTES + min byte (OFF_HASH - 1)
  Blk.writeSector sector.toNat (blit buf pos #v[buf[pos]?.getD 0 ^^^ 0xFF])

section Running

variable {log : Log} {disk : Disk} {d : Device} {n k pos : ℕ} {b : UInt8}

/-- A byte changes when all its bits are flipped. -/
theorem ne_xor_ones (v : UInt8) : v ≠ v ^^^ 0xFF := by
  intro heq
  have hxor := congrArg (v ^^^ ·) heq
  simp only [← UInt8.xor_assoc, UInt8.xor_self, UInt8.zero_xor] at hxor
  exact absurd hxor (by decide)

/-- A second change of the same byte replaces the first. -/
theorem slotAt_restore (disk : Disk) (start k : ℕ) (hpos : pos < RECORD_BYTES) (b : UInt8) (j : ℕ) :
    slotAt (tamper (tamper disk start k pos b) start k pos (slotAt disk start k)[pos]) start j =
      slotAt disk start j := by
  by_cases hj : j = k
  · subst hj
    rw [slotAt_tamper_self, slotAt_tamper_self, blit_singleton, blit_singleton]
    refine Vector.ext fun i hi => ?_
    rw [Vector.getElem_setIfInBounds hi, Vector.getElem_setIfInBounds hi]
    split_ifs with heq
    · subst heq
      rfl
    · rfl
  · rw [slotAt_tamper_of_ne hpos hj, slotAt_tamper_of_ne hpos hj]

/-- A byte of a record of an intact log is changed on the disk while the kernel runs. The next
`verify` counts the records before it and names the altered one; when the byte has been put back,
`verify` finds all records good again. -/
theorem verify_names_altered (h : Intact disk log.start.toNat log.sectors.toNat n)
    (hat : log.At disk n) (hk : k < n) (hpos : pos < RECORD_BYTES)
    (hb : (slotAt disk log.start.toNat k)[pos] ≠ b) (hd : Region log.start log.sectors d)
    (hdisk : d.disk = tamper disk log.start.toNat k pos b) :
    verify log d = (.ok ⟨k, some k⟩, d) ∧
      ∀ d', Region log.start log.sectors d' →
        d'.disk = tamper d.disk log.start.toNat k pos (slotAt disk log.start.toNat k)[pos] →
          verify log d' = (.ok ⟨n, none⟩, d') := by
  have hle := h.le
  constructor
  · rw [verify_eq hd (by rw [hat.nextSeq]; exact hle), hat.nextSeq, hdisk,
      firstBad_tampered h hk hpos hb hk]
  · intro d' hd' hback
    have hslot : ∀ j, slotAt d'.disk log.start.toNat j = slotAt disk log.start.toNat j := by
      intro j
      rw [hback, hdisk]
      exact slotAt_restore disk _ k hpos b j
    have hat' : log.At d'.disk n := by
      refine ⟨hat.ready, hat.nextSeq, ?_⟩
      rw [slots_congr fun j _ _ => hslot j]
      exact hat.lastHash
    exact (h.congr fun j _ => hslot j).verify hd' hat'

/-- What `corrupt_for_test` leaves on the disk: all bits of one byte below the hash are flipped. -/
theorem corruptForTest_disk (hd : Region log.start log.sectors d) (hw : d.writes = [])
    {seq : UInt64} (hseq : seq.toNat < log.sectors.toNat * 4) (byte : ℕ) :
    ∃ d', corruptForTest log seq byte d = (.ok (), d') ∧ Region log.start log.sectors d' ∧
      ∃ pos < OFF_HASH, ∃ b, (slotAt d.disk log.start.toNat seq.toNat)[pos]? ≠ some b ∧
        d'.disk = tamper d.disk log.start.toNat seq.toNat pos b := by
  have h4 : RECORDS_PER_SECTOR.toNat = 4 := rfl
  have hhash : OFF_HASH = 120 := rfl
  have hrecord : RECORD_BYTES = 128 := rfl
  have hsector : SECTOR_SIZE = 512 := rfl
  have hcap := hd.capacity
  have hfits := hd.fits
  have hdiv : (seq / RECORDS_PER_SECTOR).toNat = seq.toNat / 4 := by
    rw [UInt64.toNat_div, h4]
  have hmod : (seq % RECORDS_PER_SECTOR).toNat = seq.toNat % 4 := by
    rw [UInt64.toNat_mod, h4]
  obtain ⟨sector, hadd, hsum⟩ := addU64_of_lt (a := log.start) (b := seq / RECORDS_PER_SECTOR)
    (by omega) d
  have heq : sector.toNat = log.start.toNat + seq.toNat / 4 := by omega
  generalize hp : min byte (OFF_HASH - 1) = p
  generalize hv : (d.disk sector.toNat)[seq.toNat % 4 * RECORD_BYTES + p]?.getD 0 ^^^ 0xFF = v
  refine ⟨d.store sector.toNat (blit (d.disk sector.toNat) (seq.toNat % 4 * RECORD_BYTES + p) #v[v]),
    ?_, ⟨hd.reads, hd.capacity, hd.fits, hd.room⟩, p, by omega, v, ?_, ?_⟩
  · unfold corruptForTest
    rw [bind_of_ok hadd, bind_of_ok (readSector_of_healthy hd.reads (by omega))]
    simp only [hmod, hp, hv]
    exact writeSector_of_healthy _ hw (by omega)
  · have hplt : p < RECORD_BYTES := by omega
    have hlt : seq.toNat % 4 * RECORD_BYTES + p < SECTOR_SIZE := by
      rw [hrecord, hsector]
      omega
    have hbyte : (slotAt d.disk log.start.toNat seq.toNat)[p] =
        (d.disk sector.toNat)[seq.toNat % 4 * RECORD_BYTES + p]?.getD 0 := by
      rw [slotAt, recordIn, getElem_slice _ _ hplt, heq]
    intro hsame
    rw [Vector.getElem?_eq_getElem hplt, hbyte] at hsame
    exact ne_xor_ones _ ((Option.some.inj hsame).trans hv.symm)
  · rw [tamper, ← heq]
    rfl

end Running

/-! ## A log of one record -/

/-- A boot measurement, as the kernel records it. -/
def measured : Entry := ⟨0, "kernel", 0, "boot.measure", ""⟩

/-- The first sector of a log, and its size. -/
def logStart : UInt64 := 100
def logSectors : UInt64 := 2048

/-- A log of one record. -/
def oneRecord : Disk := putRecord (fun _ => blankSector) logStart.toNat 0 (measured.record 0 0)

theorem intact_oneRecord : Intact oneRecord logStart.toNat logSectors.toNat 1 :=
  Intact.empty.put (by decide) measured rfl rfl

theorem ends_oneRecord : getU64 (slotAt oneRecord logStart.toNat 1) OFF_MAGIC ≠ MAGIC := by
  rw [oneRecord, slotAt_putRecord_of_ne _ _ _ (by decide)]
  exact not_magic_of_blank rfl

/-- The disk with all bits of one byte of the record flipped. -/
def flipped (pos : ℕ) : Device where
  capacity := 20000
  disk := tamper oneRecord logStart.toNat 0 pos
    ((slotAt oneRecord logStart.toNat 0)[pos]?.getD 0 ^^^ 0xFF)

theorem region_flipped (pos : ℕ) : Region logStart logSectors (flipped pos) :=
  ⟨rfl, (by decide : logStart.toNat + logSectors.toNat ≤ 20000), (by decide : 20000 < 2 ^ 64),
    by decide⟩

theorem ne_flipped {record : Record} {pos : ℕ} (h : pos < RECORD_BYTES) :
    record[pos] ≠ record[pos]?.getD 0 ^^^ 0xFF := by
  rw [Vector.getElem?_eq_getElem h, Option.getD_some]
  exact ne_xor_ones _

/-- A flipped byte of the name is noticed. -/
theorem tampering_detected_name : Detected logStart logSectors 1 (flipped 60) := by
  have hslot : slotAt oneRecord logStart.toNat 0 = measured.record 0 0 :=
    slotAt_putRecord_self _ _ _ _
  have hseq : seqRead (flipped 60) logStart 0 = 0 := by
    rw [seqRead, flipped, slotAt_tamper_self, getU64_seq_tampered _ (by decide), hslot, getU64_seq]
    rfl
  exact (tampering_detected intact_oneRecord (fun _ => ends_oneRecord) Nat.zero_lt_one (by decide)
    (ne_flipped (by decide)) (region_flipped 60) rfl).mpr ⟨by decide, by omega, fun _ => Nat.zero_le _⟩

/-- The same byte, flipped while the kernel runs. -/
theorem verify_names_altered_name :
    verify ⟨logStart, logSectors, 1, (tipAt oneRecord logStart.toNat 1).lastHash, true⟩ (flipped 60) =
      (.ok ⟨0, some 0⟩, flipped 60) :=
  (verify_names_altered intact_oneRecord ⟨rfl, rfl, tipAt_lastHash _ _ _⟩ Nat.zero_lt_one (by decide)
    (ne_flipped (by decide)) (region_flipped 60) rfl).1

/-- A flipped byte of the magic number makes the log look empty. -/
theorem flipped_magic_unnoticed : Intact oneRecord logStart.toNat logSectors.toNat 1 ∧
    getU64 (slotAt oneRecord logStart.toNat 1) OFF_MAGIC ≠ MAGIC ∧
    ¬Detected logStart logSectors 1 (flipped 0) :=
  ⟨intact_oneRecord, ends_oneRecord, undetected_magic intact_oneRecord Nat.zero_lt_one (by decide) (by decide)
    (ne_flipped (by decide)) (region_flipped 0) rfl⟩

end JungeyOs.Audit
