import JungeyOs.Audit.Log

/-!
# What a record says

Models of `read` and `as_str` of `kernel/src/audit.rs` (lines 202–221), and what the 128 bytes
that `append` writes keep of its arguments. The names and details are read back from their
padded fields; of the actor a record keeps the number of its bytes only.

Results:
* `record_eq_iff`: two records at one place in the log are equal when their fields are.
* `read_append`: `read` gives back what `append` stored.
* `identifies_iff`: exactly which pairs of calls are told apart by their records.
-/

namespace JungeyOs.Audit

open JungeyOs.Bytes JungeyOs.Jlfs Blk

/-- `as_str` (lines 218–221). -/
def asStr (bytes : List UInt8) : String := (fromUtf8 (bytes.takeWhile (· ≠ 0))).getD "<invalid>"

/-- What `read` finds in a record: its return value, `name_out` and `detail_out`. -/
structure Found where
  seq : UInt64
  tick : UInt64
  cap : UInt64
  name : Vector UInt8 NAME_BYTES
  detail : Vector UInt8 DETAIL_BYTES

/-- `read` (lines 203–216). -/
def read (log : Log) (seq : UInt64) : Blk (Option Found) := do
  let sector ← Blk.addU64 log.start (seq / RECORDS_PER_SECTOR)
  match ← Blk.attempt (Blk.readSector sector.toNat) with
  | .error _ => pure none
  | .ok buf =>
    let record := recordIn buf (seq % RECORDS_PER_SECTOR).toNat
    if getU64 record OFF_MAGIC ≠ MAGIC then pure none
    else pure (some ⟨getU64 record OFF_SEQ, getU64 record OFF_TICK, getU64 record OFF_CAP,
      slice record OFF_NAME NAME_BYTES, slice record OFF_DETAIL DETAIL_BYTES⟩)

/-! ## The fields -/

section Fields

variable (e : Entry) (seq prev : UInt64)

/-- The numbers at the start of a record (lines 132–138). -/
def Entry.header : Record :=
  putU64 (putU64 (putU64 (putU64 (putU64 (putU64 (Vector.replicate RECORD_BYTES 0) OFF_MAGIC MAGIC)
    OFF_SEQ seq) OFF_PREV prev) OFF_TICK e.tick) OFF_ACTOR (UInt64.ofNat e.actor.utf8ByteSize))
    OFF_CAP e.cap

/-- Behind the numbers a record is blank. -/
theorem slice_header {pos len : ℕ} (h : OFF_NAME ≤ pos) (hfit : pos + len ≤ RECORD_BYTES) :
    slice (e.header seq prev) pos len = Vector.replicate len 0 := by
  have hbelow : ∀ (record : Record) {off : ℕ} (v : UInt64), off + 8 ≤ OFF_NAME →
      slice (putU64 record off v) pos len = slice record pos len := by
    intro record off v hoff
    exact slice_blit_of_disjoint _ _ _ _ (.inr (hoff.trans h))
  unfold Entry.header
  iterate 6 rw [hbelow _ _ (by decide)]
  ext k hk
  rw [getElem_slice _ _ hk, Vector.getElem?_eq_getElem (by omega), Option.getD_some]
  simp

/-- A record up to the hash: the numbers, and the two texts padded with zeros. -/
theorem body_eq :
    e.body seq prev = blit (blit (e.header seq prev) OFF_NAME (padded NAME_BYTES (asBytes e.name)))
      OFF_DETAIL (padded DETAIL_BYTES (asBytes e.detail)) := by
  have hname : ∀ text : List UInt8, (text.take NAME_BYTES).length ≤ NAME_BYTES := by simp
  have hdetail : ∀ text : List UInt8, (text.take DETAIL_BYTES).length ≤ DETAIL_BYTES := by simp
  have hblank : slice (blit (e.header seq prev) OFF_NAME (padded NAME_BYTES (asBytes e.name)))
      OFF_DETAIL DETAIL_BYTES = Vector.replicate DETAIL_BYTES 0 := by
    rw [slice_blit_of_disjoint _ _ _ _ (.inr (by decide)), slice_header _ _ _ (by decide) (by decide)]
  have hfirst := blit_padded ((asBytes e.name).take NAME_BYTES).toArray.toVector
    (hname _) (slice_header e seq prev le_rfl (by decide))
  have hsecond := blit_padded ((asBytes e.detail).take DETAIL_BYTES).toArray.toVector
    (hdetail _) hblank
  show blit (blit (e.header seq prev) OFF_NAME _) OFF_DETAIL _ = _
  rw [hfirst]
  simp only [Vector.toList, padded_take] at hsecond ⊢
  exact hsecond

theorem getU64_tick : getU64 (e.record seq prev) OFF_TICK = e.tick := by
  rw [getU64_header _ _ _ (by decide)]
  iterate 2 rw [getU64_putU64_of_disjoint _ (by decide)]
  exact getU64_putU64 _ (by decide)

theorem getU64_actor :
    getU64 (e.record seq prev) OFF_ACTOR = UInt64.ofNat e.actor.utf8ByteSize := by
  rw [getU64_header _ _ _ (by decide), getU64_putU64_of_disjoint _ (by decide)]
  exact getU64_putU64 _ (by decide)

theorem getU64_cap : getU64 (e.record seq prev) OFF_CAP = e.cap := by
  rw [getU64_header _ _ _ (by decide)]
  exact getU64_putU64 _ (by decide)

theorem slice_name :
    slice (e.record seq prev) OFF_NAME NAME_BYTES = padded NAME_BYTES (asBytes e.name) := by
  unfold Entry.record putU64
  rw [slice_blit_of_disjoint _ _ _ _ (.inl (by decide)), body_eq,
    slice_blit_of_disjoint _ _ _ _ (.inl (by decide)), slice_blit_self _ _ _ (by decide)]

theorem slice_detail :
    slice (e.record seq prev) OFF_DETAIL DETAIL_BYTES = padded DETAIL_BYTES (asBytes e.detail) := by
  unfold Entry.record putU64
  rw [slice_blit_of_disjoint _ _ _ _ (.inl (by decide)), body_eq, slice_blit_self _ _ _ (by decide)]

end Fields

/-- What a record keeps of the arguments of `append`: the clock, the number of bytes of the
actor, the capability and the padded texts. -/
structure Entry.Alike (e e' : Entry) : Prop where
  tick : e.tick = e'.tick
  actor : UInt64.ofNat e.actor.utf8ByteSize = UInt64.ofNat e'.actor.utf8ByteSize
  cap : e.cap = e'.cap
  name : padded NAME_BYTES (asBytes e.name) = padded NAME_BYTES (asBytes e'.name)
  detail : padded DETAIL_BYTES (asBytes e.detail) = padded DETAIL_BYTES (asBytes e'.detail)

/-- Two records at one place in the log are equal when their fields are. -/
theorem record_eq_iff {e e' : Entry} {seq prev : UInt64} :
    e.record seq prev = e'.record seq prev ↔ e.Alike e' := by
  constructor
  · intro h
    refine ⟨?_, ?_, ?_, ?_, ?_⟩
    · rw [← getU64_tick e seq prev, h, getU64_tick]
    · rw [← getU64_actor e seq prev, h, getU64_actor]
    · rw [← getU64_cap e seq prev, h, getU64_cap]
    · rw [← slice_name e seq prev, h, slice_name]
    · rw [← slice_detail e seq prev, h, slice_detail]
  · intro h
    have hbody : e.body seq prev = e'.body seq prev := by
      rw [body_eq, body_eq, Entry.header, Entry.header, h.tick, h.actor, h.cap, h.name, h.detail]
    rw [Entry.record, Entry.record, hbody]

/-! ## Reading a record back -/

/-- A text without NUL bytes that fits its field is read back from it. -/
theorem asStr_padded {text : String} {len : ℕ} (hlen : text.utf8ByteSize ≤ len)
    (hnul : 0 ∉ asBytes text) : asStr (padded len (asBytes text)).toList = text := by
  rw [asStr, takeWhile_padded (by rwa [length_asBytes]) hnul, fromUtf8_asBytes, Option.getD_some]

/-- Two such texts with the same field are equal. -/
theorem eq_of_padded {text text' : String} {len : ℕ} (hlen : text.utf8ByteSize ≤ len)
    (hnul : 0 ∉ asBytes text) (hlen' : text'.utf8ByteSize ≤ len) (hnul' : 0 ∉ asBytes text')
    (h : padded len (asBytes text) = padded len (asBytes text')) : text = text' := by
  rw [← asStr_padded hlen hnul, h, asStr_padded hlen' hnul']

/-- A call of `append` that returned `Ok` left its record in the slot it had found. -/
theorem slotAt_append {log log₁ : Log} {e : Entry} {d d₁ : Device} {n : UInt64}
    (h : append log e d = (.ok (n, log₁), d₁)) :
    slotAt d₁.disk log.start.toNat log.nextSeq.toNat = e.record log.nextSeq log.lastHash := by
  have happ := appended log e d
  rw [h] at happ
  obtain ⟨-, -, hdisk⟩ := happ.ok n log₁ rfl
  rw [hdisk, Log.put, slotAt_putRecord_self]

/-- `read` gives back what `append` stored. -/
theorem read_append {log log₁ : Log} {e : Entry} {d d₁ : Device} {n : UInt64}
    (h : append log e d = (.ok (n, log₁), d₁)) (hd : Region log.start log.sectors d₁)
    (hlt : log.nextSeq.toNat < log.sectors.toNat * 4) :
    read log log.nextSeq d₁ = (.ok (some ⟨log.nextSeq, e.tick, e.cap,
      padded NAME_BYTES (asBytes e.name), padded DETAIL_BYTES (asBytes e.detail)⟩), d₁) := by
  have h4 : RECORDS_PER_SECTOR.toNat = 4 := rfl
  have hcap := hd.capacity
  have hfits := hd.fits
  have hdiv : (log.nextSeq / RECORDS_PER_SECTOR).toNat = log.nextSeq.toNat / 4 := by
    rw [UInt64.toNat_div, h4]
  have hmod : (log.nextSeq % RECORDS_PER_SECTOR).toNat = log.nextSeq.toNat % 4 := by
    rw [UInt64.toNat_mod, h4]
  obtain ⟨sector, hadd, hsum⟩ := addU64_of_lt (a := log.start)
    (b := log.nextSeq / RECORDS_PER_SECTOR) (by omega) d₁
  have hread := @readSector_of_healthy sector.toNat d₁ hd.reads (by omega)
  have hslot : recordIn (d₁.disk sector.toNat) (log.nextSeq.toNat % 4) =
      e.record log.nextSeq log.lastHash := by
    rw [← slotAt_append h, slotAt, hsum, hdiv]
  unfold read
  rw [bind_of_ok hadd, bind_of_ok (attempt_of_ok hread)]
  dsimp only
  rw [hmod, hslot, if_neg (not_not.mpr (getU64_magic e _ _)), getU64_seq, getU64_tick, getU64_cap,
    slice_name, slice_detail]
  rfl

/-! ## What a record identifies -/

/-- Two calls of `append` at one place in the log leave records that tell their actors,
capabilities, names and details apart, but for calls that differ in an actor of the same length
or in a part of the detail that its field does not hold, and in nothing else. -/
theorem identifies_iff {log log₁ log' log₁' : Log} {e e' : Entry} {d d₁ d' d₁' : Device}
    {n n' : UInt64} (hcall : append log e d = (.ok (n, log₁), d₁))
    (hcall' : append log' e' d' = (.ok (n', log₁'), d₁')) (hseq : log'.nextSeq = log.nextSeq)
    (hhash : log'.lastHash = log.lastHash) (htick : e'.tick = e.tick)
    (hname : e.name.utf8ByteSize ≤ NAME_BYTES ∧ 0 ∉ asBytes e.name)
    (hname' : e'.name.utf8ByteSize ≤ NAME_BYTES ∧ 0 ∉ asBytes e'.name)
    (hactor : e.actor.utf8ByteSize < 2 ^ 64) (hactor' : e'.actor.utf8ByteSize < 2 ^ 64) :
    (slotAt d₁.disk log.start.toNat log.nextSeq.toNat =
        slotAt d₁'.disk log'.start.toNat log'.nextSeq.toNat →
      e.actor = e'.actor ∧ e.cap = e'.cap ∧ e.name = e'.name ∧ e.detail = e'.detail) ↔
    ¬((e.actor ≠ e'.actor ∨ e.detail ≠ e'.detail) ∧
      e.actor.utf8ByteSize = e'.actor.utf8ByteSize ∧ e.cap = e'.cap ∧ e.name = e'.name ∧
      padded DETAIL_BYTES (asBytes e.detail) = padded DETAIL_BYTES (asBytes e'.detail)) := by
  rw [slotAt_append hcall, slotAt_append hcall', hseq, hhash, record_eq_iff]
  constructor
  · rintro h ⟨hne, hlen, hcap, hname, htext⟩
    obtain ⟨hsame, -, -, hsame'⟩ := h ⟨htick.symm, by rw [hlen], hcap, by rw [hname], htext⟩
    exact hne.elim (fun hne => hne hsame) fun hne => hne hsame'
  · intro h halike
    have hlen : e.actor.utf8ByteSize = e'.actor.utf8ByteSize := by
      have hnat := congrArg UInt64.toNat halike.actor
      rwa [UInt64.toNat_ofNat', UInt64.toNat_ofNat', Nat.mod_eq_of_lt hactor,
        Nat.mod_eq_of_lt hactor'] at hnat
    have heq := eq_of_padded hname.1 hname.2 hname'.1 hname'.2 halike.name
    have hboth : e.actor = e'.actor ∧ e.detail = e'.detail := by
      by_contra hne
      exact h ⟨not_and_or.mp hne, hlen, halike.cap, heq, halike.detail⟩
    exact ⟨hboth.1, halike.cap, heq, hboth.2⟩

/-- A log on a healthy disk. -/
def emptyLog : Log := ⟨100, 2048, 0, 0, true⟩
def healthyDisk : Device where
  capacity := 20000
  disk := fun _ => blankSector

/-- `actor` writes to a file of notes. -/
def wrote (actor : String) : Entry := ⟨5, actor, 7, "fs.write", "notes"⟩

theorem append_wrote (actor : String) :
    ∃ log₁ d₁, append emptyLog (wrote actor) healthyDisk = (.ok (0, log₁), d₁) := by
  refine Region.append ⟨rfl, ?_, ?_, ?_⟩ rfl rfl ?_ _ <;> decide

/-- Two actors of different lengths leave different records. -/
theorem identifies_iff_wrote :
    ∃ log₁ d₁ log₁' d₁', append emptyLog (wrote "agent") healthyDisk = (.ok (0, log₁), d₁) ∧
      append emptyLog (wrote "kernel") healthyDisk = (.ok (0, log₁'), d₁') ∧
      slotAt d₁.disk emptyLog.start.toNat 0 ≠ slotAt d₁'.disk emptyLog.start.toNat 0 := by
  obtain ⟨log₁, d₁, hcall⟩ := append_wrote "agent"
  obtain ⟨log₁', d₁', hcall'⟩ := append_wrote "kernel"
  refine ⟨log₁, d₁, log₁', d₁', hcall, hcall', fun hsame => ?_⟩
  have hact := ((identifies_iff hcall hcall' rfl rfl rfl ⟨by decide, by decide⟩
    ⟨by decide, by decide⟩ (by decide) (by decide)).mpr (by decide) hsame).1
  exact absurd hact (by decide)

/-- Two actors of the same length leave the same record. -/
theorem actors_indistinguishable :
    ∃ log₁ d₁ log₁' d₁', append emptyLog (wrote "agent") healthyDisk = (.ok (0, log₁), d₁) ∧
      append emptyLog (wrote "other") healthyDisk = (.ok (0, log₁'), d₁') ∧
      slotAt d₁.disk emptyLog.start.toNat 0 = slotAt d₁'.disk emptyLog.start.toNat 0 ∧
      (wrote "agent").actor ≠ (wrote "other").actor := by
  obtain ⟨log₁, d₁, hcall⟩ := append_wrote "agent"
  obtain ⟨log₁', d₁', hcall'⟩ := append_wrote "other"
  refine ⟨log₁, d₁, log₁', d₁', hcall, hcall', ?_, by decide⟩
  have hslot := slotAt_append hcall
  have hslot' := slotAt_append hcall'
  have hsame : (wrote "agent").record 0 0 = (wrote "other").record 0 0 :=
    record_eq_iff.mpr ⟨rfl, rfl, rfl, rfl, rfl⟩
  exact hslot.trans (hsame.trans hslot'.symm)

end JungeyOs.Audit
