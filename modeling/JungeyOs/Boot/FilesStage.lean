import JungeyOs.Boot.Stages
import JungeyOs.Jlfs.Directory

/-!
# The crash test on a disk whose reads may fail

What `stage3c_demo` does to a disk with a filesystem when some of its reads fail. It
formats the disk where it takes a failed read for a blank disk (`Formats`), and otherwise
only takes the filesystem further (`Advances`).

Results:
* `mount_reads`, `mount_failed`: `mount` with reads that fail.
* `frame_stage3c`: without a format the stage writes to the log and the metadata sectors.
* `stage3c_formats`: with one it clears the directory, the action log and the control
  block.
-/

namespace JungeyOs.Boot

open Bytes Jlfs Blk Regions Dir

/-! ## Reads with fates -/

section Reads

variable {d : Device} {x : ℕ}

theorem readSector_reads (hcap : x < d.capacity) (h : d.reads.headD .ok = .ok) :
    readSector x d = (.ok (d.disk x), { d with reads := d.reads.tail }) := by
  rcases readSector_cases x d with ⟨hr, -⟩ | ⟨-, hnot⟩
  · exact hr
  · exact absurd ⟨hcap, h⟩ hnot

theorem readSector_failed (h : d.reads.headD .ok = .fail) :
    readSector x d = (.err "block driver did not answer", { d with reads := d.reads.tail }) := by
  rcases readSector_cases x d with ⟨-, -, hok⟩ | ⟨hr, -⟩
  · rw [hok] at h
    cases h
  · exact hr

/-- A `mount` fails: it makes three reads. -/
def MountFails (reads : List ReadFate) : Prop := .fail ∈ reads.take 3

theorem fate_cases (fate : ReadFate) : fate = .ok ∨ fate = .fail := by
  cases fate
  · exact .inl rfl
  · exact .inr rfl

theorem mountFails_iff {reads : List ReadFate} : MountFails reads ↔
    reads.headD .ok = .fail ∨ reads.tail.headD .ok = .fail ∨ reads.tail.tail.headD .ok = .fail := by
  unfold MountFails
  match reads with
  | [] => simp
  | [a] => simp [eq_comm]
  | [a, b] => simp [eq_comm]
  | a :: b :: c :: rest => simp [eq_comm]

instance (reads : List ReadFate) : Decidable (MountFails reads) :=
  inferInstanceAs (Decidable (ReadFate.fail ∈ reads.take 3))

variable {slot : Fin 2} {cp : Checkpoint}

/-- A `mount` whose reads go well adopts the newer root. -/
theorem mount_reads (hcap : 2 < d.capacity) (hsb : SuperblockOk (d.disk SB_SECTOR))
    (hroot : Root d.disk slot cp) (h : ¬MountFails d.reads) :
    mount d = (.ok (adopt (d.disk SB_SECTOR) slot cp), { d with reads := d.reads.drop 3 }) := by
  rw [mountFails_iff, not_or, not_or] at h
  obtain ⟨h0, h1, h2⟩ := h
  have hc0 : CP_SECTORS 0 = 1 := rfl
  have hc1 : CP_SECTORS 1 = 2 := rfl
  have hs0 : SB_SECTOR = 0 := rfl
  unfold mount
  rw [bind_of_ok (readSector_reads (by omega) ((fate_cases _).resolve_right h0)),
    if_neg (not_not.mpr hsb.1), if_neg (by simp [hsb.2]),
    bind_of_ok (readSector_reads (by dsimp only; omega) ((fate_cases _).resolve_right h1)),
    bind_of_ok (readSector_reads (by dsimp only; omega) ((fate_cases _).resolve_right h2))]
  dsimp only
  rw [newer_of_root hroot]
  rcases hr : d.reads with _ | ⟨a, _ | ⟨b, _ | ⟨c, rest⟩⟩⟩ <;> rfl

/-- A `mount` one of whose reads fails returns `Err`. -/
theorem mount_failed (hcap : 2 < d.capacity) (hsb : SuperblockOk (d.disk SB_SECTOR))
    (h : MountFails d.reads) : ∃ e reads, mount d = (.err e, { d with reads := reads }) := by
  have hc0 : CP_SECTORS 0 = 1 := rfl
  have hs0 : SB_SECTOR = 0 := rfl
  unfold mount
  rcases fate_cases (d.reads.headD .ok) with h0 | h0
  · rw [bind_of_ok (readSector_reads (by omega) h0), if_neg (not_not.mpr hsb.1),
      if_neg (by simp [hsb.2])]
    rcases fate_cases (d.reads.tail.headD .ok) with h1 | h1
    · rw [bind_of_ok (readSector_reads (by dsimp only; omega) h1)]
      have h2 : d.reads.tail.tail.headD .ok = .fail := by
        rcases mountFails_iff.mp h with h | h | h
        · rw [h0] at h; cases h
        · rw [h1] at h; cases h
        · exact h
      rw [bind_of_err (readSector_failed h2)]
      exact ⟨_, _, rfl⟩
    · rw [bind_of_err (readSector_failed h1)]
      exact ⟨_, _, rfl⟩
  · rw [bind_of_err (readSector_failed h0)]
    exact ⟨_, _, rfl⟩

end Reads

/-! ## Without a format -/

/-- The name of a file, and the file itself unless it is the one of the crash test. -/
def Keeps (files files' : List FileEntry) : Prop :=
  ∀ e ∈ files, ∃ e' ∈ files', e'.nameStr = e.nameStr ∧ (e' = e ∨ e.nameStr = FILE)

/-- `next` is a root that takes `f` further. -/
structure Advances (f : Fs) (next : Checkpoint) : Prop where
  wf : next.WF
  seq : next.seq.toNat = f.cp.seq.toNat + 1
  sound : next.Sound
  head : next.logHead.toNat ≤ f.logLimit.toNat
  keeps : Keeps f.cp.live next.live

/-- What the crash test may put where, on a disk with the filesystem `f`. -/
inductive Goes (f : Fs) : ℕ → Sector → Prop
  | log {x v} : f.cp.logHead.toNat ≤ x → x < f.logLimit.toNat → Goes f x v
  | phase {v} : Goes f TEST_STATE_SECTOR v
  | root {next} : Advances f next → Goes f (CP_SECTORS (1 - f.slot)) next.encode

section Writes

variable {f : Fs} {d d' : Device} {data : List UInt8} {crashAfter : Option UInt32}

theorem nameStr_file (start : UInt64) (n : UInt32) :
    (Fs.newEntry FILE data start n).nameStr = FILE :=
  Fs.nameStr_newEntry (by decide) (by decide)

/-- The root that a write of the test's own file commits. -/
theorem advances_stageWrite {next : Checkpoint} (hwf : f.cp.WF) (hs : f.cp.Sound)
    (h : f.stageWrite FILE data crashAfter d = (.ok next, d')) : Advances f next := by
  obtain ⟨hnext, hhead, -, -⟩ := Fs.stageWrite_ok hwf h
  obtain ⟨-, hlimit⟩ := Fs.stageWrite_accepts h
  have hlive := Fs.stageWrite_live hwf h
  refine ⟨hnext.wf, hnext.seq, ⟨?_, fun e he => ?_⟩, by omega, fun e he => ?_⟩
  · have := hs.head
    omega
  · rcases hnext.live e he with hold | hnew
    · exact (hs.within e hold).mono (by omega)
    · rw [Option.some.inj hnew]
      exact .inr ⟨hs.head, le_of_eq hhead.symm⟩
  · rw [hlive]
    by_cases hname : e.nameStr = FILE
    · exact ⟨_, self_mem_put, (nameStr_file _ _).trans hname.symm, .inr hname⟩
    · exact ⟨e, mem_put_of_ne he hname, rfl, .inl rfl⟩

theorem touches_write (hwf : f.cp.WF) (hs : f.cp.Sound) :
    Touches (Goes f) (f.write FILE data crashAfter) := by
  apply Touches.bind_ok
  · refine Fs.touches_stageWrite.mono fun x v hx => ?_
    obtain ⟨⟨-, hlimit⟩, k, hk, rfl, -⟩ := hx
    exact .log (Nat.le_add_right _ _) (by omega)
  · intro d next d' h
    exact .bind (touches_writeSector (.root (advances_stageWrite hwf hs h))) fun _ => .pure _

theorem touches_writePhase (phase : UInt64) : Touches (Goes f) (writePhase phase) :=
  touches_writeSector .phase

theorem touches_crashOn (hwf : f.cp.WF) (hs : f.cp.Sound) (phase : UInt64) :
    Touches (Goes f) (crashOn phase f) := by
  have hrest : ∀ point : UInt32, Touches (Goes f) (do
      let next ← addU64 phase 1
      let _ ← attempt (writePhase next)
      let _ ← attempt (f.write FILE (contents 2 V2_LEN) (some point))
      pure () : Blk Unit) := fun point =>
    .bind (quiet_addU64 _ _).touches fun next => .bind (touches_writePhase next).attempt fun _ =>
      .bind (touches_write hwf hs).attempt fun _ => .pure _
  refine .bind (quiet_verify _ _ _).touches fun ok => ?_
  cases ok with
  | false => exact .pure _
  | true =>
    by_cases hphase : phase = 2
    · rw [if_pos rfl, if_pos (c := phase = 2) hphase]
      exact .bind (quiet_usage f).touches fun _ => hrest _
    · rw [if_pos rfl, if_neg (c := phase = 2) hphase]
      exact hrest _

theorem touches_recover (hwf : f.cp.WF) (hs : f.cp.Sound) : Touches (Goes f) (recover f) := by
  refine .bind (quiet_verify _ _ _).touches fun ok => ?_
  split_ifs
  · refine .bind (quiet_usage f).touches fun _ => .bind (touches_write hwf hs).attempt fun r => ?_
    cases r with
    | error e => exact .pure _
    | ok f' => exact .bind (touches_writePhase 4).attempt fun _ => .pure _
  · exact .pure _

theorem touches_conclude : Touches (Goes f) (conclude f) :=
  .bind (quiet_verify _ _ _).touches fun _ => .bind (quiet_usage f).touches fun _ =>
    .bind (touches_writePhase 5).attempt fun _ => .pure _

theorem touches_goOn (hwf : f.cp.WF) (hs : f.cp.Sound) (phase : UInt64) :
    Touches (Goes f) (goOn phase f) := by
  unfold goOn
  split_ifs
  · exact touches_crashOn hwf hs phase
  · exact touches_recover hwf hs
  · exact touches_conclude

/-- Phase 0 once it has mounted what it formatted. -/
def fill (f : Fs) : Blk Unit := do
  match ← attempt (f.write FILE (contents 1 V1_LEN) none) with
  | .error _ => pure ()
  | .ok _ =>
    let _ ← attempt (writePhase 1)
    pure ()

theorem touches_fill (hwf : f.cp.WF) (hs : f.cp.Sound) : Touches (Goes f) (fill f) := by
  refine .bind (touches_write hwf hs).attempt fun r => ?_
  cases r with
  | error e => exact .pure _
  | ok f' => exact .bind (touches_writePhase 1).attempt fun _ => .pure _

/-- A stage that mounts the disk and goes on with what it finds there. -/
theorem frame_mounted {slot : Fin 2} {cp : Checkpoint} {k : Except String Fs → Blk Unit}
    (hroot : Root d.disk slot cp)
    (hok : Touches (Goes (adopt (d.disk SB_SECTOR) slot cp)) (k (.ok (adopt (d.disk SB_SECTOR) slot cp))))
    (herr : ∀ e, Touches (Goes (adopt (d.disk SB_SECTOR) slot cp)) (k (.error e))) :
    Frame (Goes (adopt (d.disk SB_SECTOR) slot cp)) d ((attempt mount >>= k) d).2 := by
  apply Frame.bind (quiet_mount.attempt.touches d)
  intro r d' hr
  cases r with
  | error e => exact herr e d'
  | ok f =>
    obtain rfl := mount_root hroot (attempt_eq_ok hr)
    exact hok d'

end Writes

/-! ## The stage without a format -/

/-- The stage formats the disk: it read no phase, or could not mount. -/
def Formats (reads : List ReadFate) (disk : Disk) (allowCrash : Bool) : Prop :=
  if allowCrash then reads.headD .ok = .fail ∨ phaseIn (disk TEST_STATE_SECTOR) = 0
  else MountFails reads.tail

section Stage

variable {d : Device} {slot : Fin 2} {cp : Checkpoint} {allowCrash : Bool} {capacity : UInt64}

/-- What `read_phase` makes of the disk. -/
theorem readPhase_reads (hcap : TEST_STATE_SECTOR < d.capacity) :
    readPhase d = (.ok (if d.reads.headD .ok = .fail then 0 else phaseIn (d.disk TEST_STATE_SECTOR)),
      { d with reads := d.reads.tail }) := by
  unfold readPhase
  rcases fate_cases (d.reads.headD .ok) with h | h
  · rw [bind_of_ok (attempt_of_ok (readSector_reads hcap h)), if_neg (by rw [h]; decide)]
    rfl
  · rw [bind_of_ok (attempt_of_err (readSector_failed h)), if_pos h]
    rfl

/-- Without a format the stage only takes the filesystem further. -/
theorem frame_stage3c (hcap : TEST_STATE_SECTOR < d.capacity) (hsb : SuperblockOk (d.disk SB_SECTOR))
    (hroot : Root d.disk slot cp) (hs : cp.Sound) (h : ¬Formats d.reads d.disk allowCrash) :
    Frame (Goes (adopt (d.disk SB_SECTOR) slot cp)) d (stage3c capacity allowCrash d).2 := by
  have hwf : cp.WF := Checkpoint.decode_wf hroot.live
  have h4 : TEST_STATE_SECTOR = 4 := rfl
  have htail : Frame (Goes (adopt (d.disk SB_SECTOR) slot cp)) d { d with reads := d.reads.tail } :=
    ⟨rfl, fun _ => .inl rfl, List.suffix_refl _, fun _ => .inl, List.prefix_refl _⟩
  unfold stage3c
  rw [bind_of_ok (readPhase_reads hcap)]
  cases allowCrash with
  | false =>
    have hm := mount_reads (d := { d with reads := d.reads.tail }) (by dsimp only; omega) hsb hroot h
    rw [if_pos rfl, showFiles, bind_of_ok (attempt_of_ok hm)]
    exact ⟨rfl, fun _ => .inl rfl, List.suffix_refl _, fun _ => .inl, List.prefix_refl _⟩
  | true =>
    obtain ⟨hread, hphase⟩ := not_or.mp h
    rw [if_neg (by decide), if_neg hread, if_neg hphase]
    refine htail.trans ?_
    apply frame_mounted (d := { d with reads := d.reads.tail }) hroot
    · exact touches_goOn hwf hs _
    · exact fun e => .pure _

end Stage

/-! ## The stage with a format -/

/-- The device after `format`. -/
def relaid (d : Device) (total len spill audit ota : UInt64) : Device :=
  ((((d.store SB_SECTOR (superblock total len spill audit ota)).store (CP_SECTORS 1)
    blankSector).store (CP_SECTORS 0) Checkpoint.new.encode).store audit.toNat blankSector).store
    ota.toNat blankSector

section Format

variable {d : Device} {total len spill audit ota : UInt64} {allowCrash : Bool}

/-- On a disk whose writes go well `format` writes its five sectors. -/
theorem format_relaid (hgeo : Geometry total spill audit ota) (hw : d.writes = [])
    (hcap : total.toNat ≤ d.capacity) :
    ∃ len, format total d = (.ok (), relaid d total len spill audit ota) := by
  obtain ⟨hspill, haudit, hota, hlog⟩ := hgeo
  have h1 : SPILL_SECTORS.toNat = 16384 := rfl
  have h2 : AUDIT_SECTORS.toNat = 2048 := rfl
  have h3 : OTA_SECTORS.toNat = 129 := rfl
  have h4 : LOG_START.toNat = 8 := rfl
  have hA : CP_SECTORS 0 = 1 := rfl
  have hB : CP_SECTORS 1 = 2 := rfl
  have hS : SB_SECTOR = 0 := rfl
  obtain ⟨spill', hs, hsEq⟩ := subU64_of_le (b := SPILL_SECTORS) (a := total) (by omega) d
  obtain rfl : spill' = spill := UInt64.toNat_inj.mp (by omega)
  obtain ⟨audit', ha, haEq⟩ := subU64_of_le (b := AUDIT_SECTORS) (a := spill') (by omega) d
  obtain rfl : audit' = audit := UInt64.toNat_inj.mp (by omega)
  obtain ⟨ota', ho, hoEq⟩ := subU64_of_le (b := OTA_SECTORS) (a := audit') (by omega) d
  obtain rfl : ota' = ota := UInt64.toNat_inj.mp (by omega)
  obtain ⟨len, hl, -⟩ := subU64_of_le (b := LOG_START) (a := ota') (by omega) d
  refine ⟨len, ?_⟩
  have hwrite : ∀ (e : Device), e.writes = [] → e.capacity = d.capacity → ∀ (x : ℕ) (data : Sector),
      x < d.capacity → writeSector x data e = (.ok (), e.store x data) :=
    fun e hw hc x data hlt => writeSector_of_healthy data hw (hc ▸ hlt)
  unfold format
  rw [bind_of_ok hs, bind_of_ok ha, bind_of_ok ho, bind_of_ok hl,
    bind_of_ok (hwrite d hw rfl _ _ (by omega)),
    bind_of_ok (hwrite (d.store _ _) hw rfl _ _ (by omega)),
    bind_of_ok (hwrite ((d.store _ _).store _ _) hw rfl _ _ (by omega)),
    bind_of_ok (hwrite (((d.store _ _).store _ _).store _ _) hw rfl _ _ (by omega)),
    hwrite ((((d.store _ _).store _ _).store _ _).store _ _) hw rfl _ _ (by omega)]
  rfl

/-- What is on a disk after `format`. -/
theorem relaid_disk (len : UInt64) (hgeo : Geometry total spill audit ota) (d : Device) :
    (relaid d total len spill audit ota).disk SB_SECTOR = superblock total len spill audit ota ∧
      Root (relaid d total len spill audit ota).disk 0 Checkpoint.new ∧
      (relaid d total len spill audit ota).disk audit.toNat = blankSector ∧
      (relaid d total len spill audit ota).disk ota.toNat = blankSector := by
  obtain ⟨hspill, haudit, hota, hlog⟩ := hgeo
  have h2 : AUDIT_SECTORS.toNat = 2048 := rfl
  have h3 : OTA_SECTORS.toNat = 129 := rfl
  have h4 : LOG_START.toNat = 8 := rfl
  have hA : CP_SECTORS 0 = 1 := rfl
  have hB : CP_SECTORS (1 - 0) = 2 := rfl
  have hB' : CP_SECTORS 1 = 2 := rfl
  have hS : SB_SECTOR = 0 := rfl
  have hlow : ∀ x < 8, (relaid d total len spill audit ota).disk x =
      (Function.update (Function.update (Function.update d.disk 0
        (superblock total len spill audit ota)) 2 blankSector) 1 Checkpoint.new.encode) x := by
    intro x hx
    unfold relaid
    rw [Device.store_disk_of_ne _ _ (by omega), Device.store_disk_of_ne _ _ (by omega)]
    rfl
  refine ⟨?_, ⟨?_, fun c hc => ?_⟩, ?_, ?_⟩
  · rw [hS, hlow 0 (by omega), Function.update_of_ne (by omega), Function.update_of_ne (by omega),
      Function.update_self]
  · rw [hA, hlow 1 (by omega), Function.update_self, Checkpoint.decode_encode Checkpoint.wf_new]
  · rw [hB, hlow 2 (by omega), Function.update_of_ne (by omega), Function.update_self,
      decode_blank] at hc
    cases hc
  · unfold relaid
    rw [Device.store_disk_of_ne _ _ (by omega)]
    exact Function.update_self _ _ _
  · exact Function.update_self _ _ _

/-- Where the stage formats the disk, it goes on from there. -/
theorem stage3c_formats (hgeo : Geometry total spill audit ota) (hw : d.writes = [])
    (hcap : d.capacity = total.toNat) (hsb : SuperblockOk (d.disk SB_SECTOR))
    (h : Formats d.reads d.disk allowCrash) : ∃ len reads,
      Frame (Goes (adopt (superblock total len spill audit ota) 0 Checkpoint.new))
        (relaid { d with reads := reads } total len spill audit ota)
        (stage3c total allowCrash d).2 := by
  obtain ⟨hspill, haudit, hota, hlog⟩ := id hgeo
  have h4 : TEST_STATE_SECTOR = 4 := rfl
  have h1 : SPILL_SECTORS.toNat = 16384 := rfl
  unfold stage3c
  rw [bind_of_ok (readPhase_reads (by omega))]
  cases allowCrash with
  | false =>
    obtain ⟨e, reads, hm⟩ := mount_failed (d := { d with reads := d.reads.tail })
      (by dsimp only; omega) hsb h
    obtain ⟨len, hfmt⟩ := format_relaid hgeo (d := { d with reads := reads }) hw (by dsimp only; omega)
    refine ⟨len, reads, ?_⟩
    rw [if_pos rfl, showFiles, bind_of_ok (attempt_of_err hm)]
    dsimp only
    rw [bind_of_ok (attempt_of_ok hfmt)]
    exact .refl _
  | true =>
    have hzero : (if d.reads.headD .ok = .fail then 0
        else phaseIn (d.disk TEST_STATE_SECTOR)) = (0 : UInt64) := by
      split_ifs with hread
      · rfl
      · exact (Or.resolve_left h hread)
    obtain ⟨len, hfmt⟩ := format_relaid hgeo (d := { d with reads := d.reads.tail }) hw
      (by dsimp only; omega)
    obtain ⟨hsb', hroot, -, -⟩ := relaid_disk len hgeo { d with reads := d.reads.tail }
    refine ⟨len, d.reads.tail, ?_⟩
    rw [if_neg (by decide), if_pos hzero, layOut, bind_of_ok (attempt_of_ok hfmt)]
    have hframe := frame_mounted (k := fun
        | .error _ => pure ()
        | .ok f => fill f) hroot
      (touches_fill Checkpoint.wf_new Checkpoint.sound_new) fun e => .pure _
    rw [hsb'] at hframe
    exact hframe

end Format

end JungeyOs.Boot
