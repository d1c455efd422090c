import JungeyOs.Boot.UpdateStage
import JungeyOs.Lib.Run

/-!
# Boots whose reads fail

In a boot the kernel runs the crash test of the filesystem, the action log and the update
service (`kernel/src/main.rs`, lines 220–241). Here any `read_sector` call of theirs may
return `Err`; the disk itself is intact, and its writes go well.

Each of the three makes something of a read that failed: `read_phase` takes the disk for a
blank one, a display boot formats a disk that it could not mount, `init` takes the log to
end where it could not read on, and `read_control` takes the device for one that has never
been updated. What is written afterwards spares what was on the disk exactly as long as
none of these is wrong (`Startup.Trusts`).

Results:
* `Sane.frame`: the crash test leaves an intact filesystem.
* `files_goOn`, `files_format`, `log_spares`, `update_spares`: when each of the three spares the disk.
* `spares_iff_trusts`: a whole boot does exactly when each of its steps does.
-/

namespace JungeyOs.Boot

open Bytes Jlfs Blk Ota Regions

/-! ## The boot -/

/-- What writes to the disk in a boot. -/
inductive Path
  /-- `stage3c_demo`. -/
  | files
  /-- `audit::init` and the `append` calls after it. -/
  | log (entries : List Audit.Entry)
  /-- `stage7c_demo`. -/
  | update (confirm : Bool) (offered : Option (UInt64 × Bool))

/-- A boot in progress: the disk, whether the machine is still up, and whether its log has
been initialised; and of the last step the disk before it, the sectors that landed, oldest
first, and the sequence numbers that `append` returned. -/
structure Startup where
  capacity : ℕ
  display : Bool
  disk : Disk
  up : Bool
  logged : Bool
  before : Disk
  landed : List (ℕ × Sector)
  acks : List UInt64

namespace Startup

/-- The computation that a path runs. -/
def run (b : Startup) : Path → Blk (List UInt64)
  | .files => do
    stage3c (UInt64.ofNat b.capacity) (!b.display)
    pure []
  | .log entries => logStage entries
  | .update confirm offered => do
    stage7c confirm offered
    pure []

/-- The log is initialised once in a boot. -/
def Runs (b : Startup) : Path → Prop
  | .log _ => b.up = true ∧ b.logged = false
  | _ => b.up = true

instance (b : Startup) (p : Path) : Decidable (b.Runs p) := by
  cases p <;> unfold Runs <;> infer_instance

/-- The disk, with the fates of the reads to come. -/
def device (b : Startup) (reads : List ReadFate) : Device where
  capacity := b.capacity
  disk := b.disk
  reads := reads

/-- The boot after a path that ended so. -/
def after (b : Startup) (p : Path) (r : Exit (List UInt64) × Device) : Startup :=
  { b with
    disk := r.2.disk
    up := match r.1 with
      | .halted _ => false
      | _ => true
    logged := match p with
      | .log _ => true
      | _ => b.logged
    before := b.disk
    landed := r.2.trace
    acks := match r.1 with
      | .ok acks => acks
      | _ => [] }

/-- One path runs, and its reads have these fates. -/
def step (b : Startup) (a : Path × List ReadFate) : Option Startup :=
  if b.Runs a.1 then some (b.after a.1 (b.run a.1 (b.device a.2))) else none

end Startup

/-! ## What is spared -/

/-- No sector of the file `e` is written over, and a root that lands names the file still:
as it was, or as the crash test wrote its own file anew. -/
structure Kept (e : FileEntry) (landed : List (ℕ × Sector)) : Prop where
  extent : ∀ p ∈ landed, p.1 < e.start.toNat ∨ e.start.toNat + e.sectors.toNat ≤ p.1
  linked : ∀ slot v, (CP_SECTORS slot, v) ∈ landed → ∃ cp, Checkpoint.decode v = some cp ∧
    ∃ e' ∈ cp.live, e'.nameStr = e.nameStr ∧ (e' = e ∨ e.nameStr = FILE)

/-- The last step spared what was on the disk: the files, the records of the action log and
their numbers, the control block and the slots that it marks `Successful`. It laid out only
a disk that says itself that it is blank. -/
structure Spares (f : Fs) (b : Startup) : Prop where
  files : ∀ e ∈ f.cp.live, Kept e b.landed
  records : ∀ i, Existing b.before f.auditStart.toNat f.auditSectors.toNat i →
    Audit.slotAt b.disk f.auditStart.toNat i = Audit.slotAt b.before f.auditStart.toNat i
  numbers : ∀ seq ∈ b.acks, ¬Existing b.before f.auditStart.toNat f.auditSectors.toNat seq.toNat
  control : ∀ c, Control.decode (b.before f.otaStart.toNat) = some c →
    ∃ c', Follows f c b.landed c'
  laidOut : ∀ v, (SB_SECTOR, v) ∈ b.landed →
    b.display = false ∧ phaseIn (b.before TEST_STATE_SECTOR) = 0

/-- The filesystem that a `mount` finds. -/
def Finds (disk : Disk) (f : Fs) : Prop :=
  ∃ slot cp, Root disk slot cp ∧ f = adopt (disk SB_SECTOR) slot cp

/-- The last step spared what was on the disk before it. -/
def Startup.Harmless (b : Startup) : Prop := ∀ f, Finds b.before f → Spares f b

/-- There is nothing on the disk yet. -/
structure Nothing (disk : Disk) (f : Fs) : Prop where
  files : f.cp.live = []
  records : ¬Existing disk f.auditStart.toNat f.auditSectors.toNat 0
  control : Control.decode (disk f.otaStart.toNat) = none

/-- The condition on a step, for the filesystem `f` on the disk: what the kernel makes of a
read that fails is true of the disk, or it writes nothing for it.

* It formats only a disk whose phase is 0, and on which there is nothing.
* It stops looking for records only after the last one. If a read fails before, the reads
  of all `append` calls fail too.
* It takes the control block to be missing only where there is none. -/
def Startup.TrustsOn (b : Startup) (f : Fs) : Path × List ReadFate → Prop
  | (.files, reads) => Formats reads b.disk (!b.display) →
      b.display = false ∧ phaseIn (b.disk TEST_STATE_SECTOR) = 0 ∧ Nothing b.disk f
  | (.log entries, reads) => MountFails reads ∨ (.fail ∈ reads.drop 3 →
      Existing b.disk f.auditStart.toNat f.auditSectors.toNat (4 * (reads.drop 3).idxOf .fail) →
      ∀ k < entries.length, ((reads.drop 3).drop ((reads.drop 3).idxOf .fail + 1))[k]? = some .fail)
  | (.update _ _, reads) => MountFails reads ∨ reads[3]? ≠ some .fail ∨
      Control.decode (b.disk f.otaStart.toNat) = none

/-- The condition on a step that runs. -/
def Startup.Trusts (b : Startup) (a : Path × List ReadFate) : Prop :=
  b.Runs a.1 → ∀ f, Finds b.disk f → b.TrustsOn f a

/-! ## Intact disks -/

/-- The disk was laid out by `format`, and its newer root is sound. -/
structure Sane (capacity : ℕ) (disk : Disk) (slot : Fin 2) (cp : Checkpoint) : Prop where
  laid : Laid capacity (disk SB_SECTOR)
  root : Root disk slot cp
  sound : cp.Sound
  head : cp.logHead.toNat ≤ (adopt (disk SB_SECTOR) slot cp).logLimit.toNat

/-- The records of the log are numbered, until this boot adds to them. -/
def LogSane (b : Startup) (f : Fs) : Prop :=
  b.logged = false → ∃ n, Numbered b.disk f.auditStart.toNat f.auditSectors.toNat n

/-- A control block was written once or more, and marks at most one slot. -/
def ControlSane (disk : Disk) (f : Fs) : Prop :=
  ∀ c, Control.decode (disk f.otaStart.toNat) = some c → 1 ≤ c.seq.toNat ∧ Single c

/-- A boot whose disk is intact. -/
structure Startup.Intact (b : Startup) (slot : Fin 2) (cp : Checkpoint) : Prop where
  sane : Sane b.capacity b.disk slot cp
  log : LogSane b (adopt (b.disk SB_SECTOR) slot cp)
  control : ControlSane b.disk (adopt (b.disk SB_SECTOR) slot cp)

/-- A boot that has just begun, with an intact disk. -/
structure Startup.Start (b : Startup) : Prop where
  intact : ∃ slot cp, b.Intact slot cp
  before : b.before = b.disk
  landed : b.landed = []
  acks : b.acks = []

/-! ## What a step leaves intact -/

section Sane

variable {n : ℕ} {disk disk' : Disk} {slot : Fin 2} {cp : Checkpoint}

theorem Sane.mounted (h : Sane n disk slot cp) :
    Mounted (disk SB_SECTOR) (adopt (disk SB_SECTOR) slot cp) :=
  ⟨rfl, Checkpoint.decode_wf h.root.live, h.sound.head⟩

theorem Sane.bounds (h : Sane n disk slot cp) : Bounds n (adopt (disk SB_SECTOR) slot cp) :=
  h.mounted.bounds h.laid

theorem Sane.superblock (h : Sane n disk slot cp) : SuperblockOk (disk SB_SECTOR) := by
  obtain ⟨total, len, spill, audit, ota, hsb, -⟩ := h.laid
  rw [hsb]
  exact superblockOk total len spill audit ota

theorem Sane.lt (h : Sane n disk slot cp) : n < 2 ^ 64 := by
  obtain ⟨total, len, spill, audit, ota, -, -, htotal⟩ := h.laid
  rw [← htotal]
  exact total.toNat_lt

/-- The log of the actions lies on the disk. -/
theorem Sane.onDisk (h : Sane n disk slot cp) :
    OnDisk (adopt (disk SB_SECTOR) slot cp).auditStart (adopt (disk SB_SECTOR) slot cp).auditSectors
      n := by
  have haudit := h.bounds.audit
  have hspill := h.bounds.spill
  have hsectors := h.bounds.auditSectors
  have hlt := h.lt
  constructor <;> omega

/-- What is below the log decides what a `mount` finds. -/
theorem Sane.congr (h : Sane n disk slot cp) (hlow : ∀ x < 8, disk' x = disk x) :
    Sane n disk' slot cp := by
  have hsb : disk' SB_SECTOR = disk SB_SECTOR := hlow _ (by decide)
  have hcp : ∀ s, disk' (CP_SECTORS s) = disk (CP_SECTORS s) := fun s => hlow _ (by
    rcases cpSector_cases s with hs | hs <;> omega)
  obtain ⟨hlaid, ⟨hlive, hnew⟩, hsound, hhead⟩ := h
  rw [← hsb] at hlaid hhead
  rw [← hcp] at hlive hnew
  exact ⟨hlaid, ⟨hlive, hnew⟩, hsound, hhead⟩

theorem finds_iff (h : Root disk slot cp) (f : Fs) :
    Finds disk f ↔ f = adopt (disk SB_SECTOR) slot cp := by
  constructor
  · rintro ⟨slot', cp', hroot, rfl⟩
    have hsame : some (slot', cp') = some (slot, cp) :=
      (newer_of_root hroot).symm.trans (newer_of_root h)
    obtain ⟨rfl, rfl⟩ := Prod.mk.inj (Option.some.inj hsame)
    rfl
  · rintro rfl
    exact ⟨slot, cp, h, rfl⟩

end Sane

section Goes

variable {f : Fs} {x : ℕ} {v : Sector}

/-- Where the crash test writes. -/
theorem Goes.place (h : Goes f x v) : f.cp.logHead.toNat ≤ x ∧ x < f.logLimit.toNat ∨ x = 4 ∨
    x = CP_SECTORS (1 - f.slot) := by
  cases h with
  | log h1 h2 => exact .inl ⟨h1, h2⟩
  | phase => exact .inr (.inl rfl)
  | root h => exact .inr (.inr rfl)

/-- A root goes into the slot that is not in use. -/
theorem Goes.next (h : Goes f x v) (hhead : LOG_START.toNat ≤ f.cp.logHead.toNat) {slot : Fin 2}
    (hx : x = CP_SECTORS slot) : slot = 1 - f.slot ∧ ∃ next, Advances f next ∧ v = next.encode := by
  have h8 : LOG_START.toNat = 8 := rfl
  have hle := cpSector_cases slot
  cases h with
  | log h1 h2 => omega
  | phase =>
    have h4 : TEST_STATE_SECTOR = 4 := rfl
    omega
  | root h =>
    refine ⟨?_, _, h, rfl⟩
    by_contra hne
    exact cpSector_ne hne hx.symm

theorem kept_of_goes (hs : f.cp.Sound) {e : FileEntry} (he : e ∈ f.cp.live)
    {landed : List (ℕ × Sector)} (h : ∀ p ∈ landed, Goes f p.1 p.2) : Kept e landed := by
  have h8 : LOG_START.toNat = 8 := rfl
  have hhead := hs.head
  constructor
  · intro p hp
    have hle := cpSector_cases (1 - f.slot)
    have hplace := (h p hp).place
    rcases hs.within e he with hzero | ⟨h1, h2⟩ <;> omega
  · intro slot v hv
    obtain ⟨-, next, hnext, rfl⟩ := (h _ hv).next hhead rfl
    obtain ⟨e', he', hname, hsame⟩ := hnext.keeps e he
    exact ⟨next, Checkpoint.decode_encode hnext.wf, e', he', hname, hsame⟩

/-- What lands above the files leaves them alone. -/
theorem kept_of_above (hs : f.cp.Sound) {limit : ℕ} (hlimit : f.cp.logHead.toNat ≤ limit)
    {e : FileEntry} (he : e ∈ f.cp.live) {landed : List (ℕ × Sector)}
    (h : ∀ p ∈ landed, limit ≤ p.1) : Kept e landed := by
  have h8 : LOG_START.toNat = 8 := rfl
  have hhead := hs.head
  constructor
  · intro p hp
    have hp := h p hp
    rcases hs.within e he with hzero | ⟨h1, h2⟩ <;> omega
  · intro slot v hv
    have hv := h _ hv
    have hle := cpSector_cases slot
    dsimp only at hv
    omega

end Goes

/-- The crash test leaves an intact filesystem. -/
theorem Sane.frame {n : ℕ} {d d' : Device} {slot : Fin 2} {cp : Checkpoint}
    (h : Sane n d.disk slot cp) (hframe : Frame (Goes (adopt (d.disk SB_SECTOR) slot cp)) d d') :
    (∃ slot' cp', Sane n d'.disk slot' cp') ∧ d'.disk SB_SECTOR = d.disk SB_SECTOR ∧
      ∀ x, (adopt (d.disk SB_SECTOR) slot cp).logLimit.toNat ≤ x → d'.disk x = d.disk x := by
  have h8 : LOG_START.toNat = 8 := rfl
  have h0 : SB_SECTOR = 0 := rfl
  have hhead := h.sound.head
  have hhead' : LOG_START.toNat ≤ (adopt (d.disk SB_SECTOR) slot cp).cp.logHead.toNat := hhead
  have hle := cpSector_cases (1 - slot)
  have hlimit : cp.logHead.toNat ≤ (adopt (d.disk SB_SECTOR) slot cp).logLimit.toNat := h.head
  have hsame : ∀ x, x ≠ 4 → x ≠ CP_SECTORS (1 - slot) →
      (x < cp.logHead.toNat ∨ (adopt (d.disk SB_SECTOR) slot cp).logLimit.toNat ≤ x) →
      d'.disk x = d.disk x := by
    intro x h4 hcp hlog
    refine (hframe.disk x).resolve_right fun hgoes => ?_
    rcases hgoes.place with ⟨h1, h2⟩ | hx | hx
    · have h1 : cp.logHead.toNat ≤ x := h1
      omega
    · exact h4 hx
    · exact hcp hx
  have hsb : d'.disk SB_SECTOR = d.disk SB_SECTOR := hsame _ (by omega) (by omega) (by omega)
  refine ⟨?_, hsb, fun x hx => hsame x (by omega) (by omega) (.inr hx)⟩
  obtain ⟨hlaid, ⟨hlive, hnew⟩, hsound, -⟩ := h
  have hother : CP_SECTORS slot ≠ CP_SECTORS (1 - slot) := cpSector_ne (by omega)
  have hle' := cpSector_cases slot
  have hcp : d'.disk (CP_SECTORS slot) = d.disk (CP_SECTORS slot) :=
    hsame _ (by omega) hother (by omega)
  have hcur : Checkpoint.decode (d'.disk (CP_SECTORS slot)) = some cp := by rw [hcp, hlive]
  rcases hframe.disk (CP_SECTORS (1 - slot)) with hold | hgoes
  · refine ⟨slot, cp, by rwa [hsb], ⟨hcur, ?_⟩, hsound, by rwa [hsb]⟩
    rwa [hold]
  · obtain ⟨-, next, hnext, hv⟩ := hgoes.next hhead' rfl
    refine ⟨1 - slot, next, by rwa [hsb], ⟨?_, fun c hc => ?_⟩, hnext.sound, ?_⟩
    · rw [hv, Checkpoint.decode_encode hnext.wf]
    · have hback : 1 - (1 - slot) = slot := by omega
      rw [hback, hcur] at hc
      obtain rfl := Option.some.inj hc
      have hseq : next.seq.toNat = cp.seq.toNat + 1 := hnext.seq
      exact UInt64.lt_iff_toNat_lt.mpr (by omega)
    · rw [hsb]
      exact hnext.head

/-! ## The crash test -/

section Paths

variable {b : Startup} {slot : Fin 2} {cp : Checkpoint} {reads : List ReadFate}

theorem slotAt_congr {disk disk' : Disk} {start k : ℕ} (h : disk' (start + k / 4) = disk (start + k / 4)) :
    Audit.slotAt disk' start k = Audit.slotAt disk start k := by
  unfold Audit.slotAt
  rw [h]

theorem Numbered.congr {disk disk' : Disk} {start sectors n : ℕ} (h : Numbered disk start sectors n)
    (hdisk : ∀ x, start ≤ x → x < start + sectors → disk' x = disk x) :
    Numbered disk' start sectors n := by
  have hle := h.le
  have hslot : ∀ k < sectors * 4, Audit.slotAt disk' start k = Audit.slotAt disk start k :=
    fun k hk => slotAt_congr (hdisk _ (by omega) (by omega))
  refine ⟨⟨⟨h.le, fun k hk => ?_, fun k hk => ?_⟩, fun hn => ?_⟩, fun k hk => ?_⟩
  · rw [hslot k (by omega)]
    exact h.magic k hk
  · rw [hslot k (by omega)]
    exact h.seq k hk
  · rw [hslot n hn]
    exact h.stop hn
  · rw [hslot k (by omega)]
    exact h.number k hk

/-- What a step from an intact boot has to see to. -/
theorem Startup.Intact.next {b' : Startup} (h : b.Intact slot cp)
    (hsane : ∃ slot' cp', Sane b'.capacity b'.disk slot' cp')
    (hsb : b'.disk SB_SECTOR = b.disk SB_SECTOR)
    (hlog : b'.logged = false → b.logged = false ∧
      ∀ x, (adopt (b.disk SB_SECTOR) slot cp).auditStart.toNat ≤ x → b'.disk x = b.disk x)
    (hcontrol : ControlSane b'.disk (adopt (b.disk SB_SECTOR) slot cp)) :
    ∃ slot' cp', b'.Intact slot' cp' := by
  obtain ⟨slot', cp', hsane'⟩ := hsane
  have hota : (adopt (b'.disk SB_SECTOR) slot' cp').otaStart =
      (adopt (b.disk SB_SECTOR) slot cp).otaStart := by rw [hsb]; rfl
  have hstart : (adopt (b'.disk SB_SECTOR) slot' cp').auditStart =
      (adopt (b.disk SB_SECTOR) slot cp).auditStart := by rw [hsb]; rfl
  have hsectors : (adopt (b'.disk SB_SECTOR) slot' cp').auditSectors =
      (adopt (b.disk SB_SECTOR) slot cp).auditSectors := by rw [hsb]; rfl
  refine ⟨slot', cp', hsane', fun hl => ?_, fun c hc => ?_⟩
  · obtain ⟨hlogged, hdisk⟩ := hlog hl
    obtain ⟨n, hn⟩ := h.log hlogged
    rw [hstart, hsectors]
    exact ⟨n, hn.congr fun x hx _ => hdisk x hx⟩
  · rw [hota] at hc
    exact hcontrol c hc

/-- The step from `b` to `b'` left the device `d`, and returned these numbers. -/
structure Left (b b' : Startup) (d : Device) (acks : List UInt64) : Prop where
  capacity : b'.capacity = b.capacity
  display : b'.display = b.display
  disk : b'.disk = d.disk
  before : b'.before = b.disk
  landed : b'.landed = d.trace
  acks : b'.acks = acks

theorem left_ok {p : Path} {d d' : Device} {acks : List UInt64} (hrun : b.run p d = (.ok acks, d')) :
    Left b (b.after p (b.run p d)) d' acks := by
  rw [hrun]
  exact ⟨rfl, rfl, rfl, rfl, rfl, rfl⟩

/-- A path that returns nothing. -/
theorem left_pure {p : Path} {d : Device} {m : Blk Unit}
    (hm : b.run p = do m; pure ([] : List UInt64)) : Left b (b.after p (b.run p d)) (m d).2 [] := by
  rw [hm, bind_apply]
  match m d with
  | (.ok a, d') => exact ⟨rfl, rfl, rfl, rfl, rfl, rfl⟩
  | (.err e, d') => exact ⟨rfl, rfl, rfl, rfl, rfl, rfl⟩
  | (.halted why, d') => exact ⟨rfl, rfl, rfl, rfl, rfl, rfl⟩

/-- What only takes the filesystem further spares the disk. -/
theorem goes_spares {b' : Startup} {d d' : Device} (h : b.Intact slot cp) (hleft : Left b b' d' [])
    (hlogged : b'.logged = b.logged) (hd : d.disk = b.disk) (htrace : d.trace = [])
    (hframe : Frame (Goes (adopt (b.disk SB_SECTOR) slot cp)) d d') :
    Spares (adopt (b.disk SB_SECTOR) slot cp) b' ∧ ∃ slot' cp', b'.Intact slot' cp' := by
  have hbounds := h.sane.bounds
  have hlimit := hbounds.limit
  have hupdate := hbounds.update
  have hlow := hbounds.low
  have hle := cpSector_cases (1 - slot)
  have h0 : SB_SECTOR = 0 := rfl
  have h8 : LOG_START.toNat = 8 := rfl
  have hhead := h.sane.sound.head
  have hsane : Sane b.capacity d.disk slot cp := by
    rw [hd]
    exact h.sane
  obtain ⟨hsane, hsb, habove⟩ := hsane.frame (show Frame (Goes (adopt (d.disk SB_SECTOR) slot cp)) d d' by
    rw [hd]
    exact hframe)
  rw [hd] at hsb habove
  rw [hlimit] at habove
  have hgoes : ∀ p ∈ d'.trace, Goes (adopt (b.disk SB_SECTOR) slot cp) p.1 p.2 := by
    intro p hp
    refine (hframe.trace p hp).resolve_left ?_
    rw [htrace]
    exact List.not_mem_nil
  have hplace : ∀ p ∈ d'.trace, p.1 ≠ 0 ∧
      p.1 < (adopt (b.disk SB_SECTOR) slot cp).otaStart.toNat := by
    intro p hp
    rcases (hgoes p hp).place with ⟨h1, h2⟩ | hx | hx
    · have h1 : cp.logHead.toNat ≤ p.1 := h1
      rw [hlimit] at h2
      omega
    · omega
    · have hx : p.1 = CP_SECTORS (1 - slot) := hx
      omega
  constructor
  · constructor
    · intro e he
      rw [hleft.landed]
      exact kept_of_goes h.sane.sound he hgoes
    · intro i hi
      rw [hleft.disk, hleft.before]
      exact slotAt_congr (habove _ (by omega))
    · rw [hleft.acks]
      exact fun seq hseq => absurd hseq List.not_mem_nil
    · intro c hc
      rw [hleft.landed]
      exact ⟨c, follows_outside fun p hp => .inl (hplace p hp).2⟩
    · intro v hv
      rw [hleft.landed] at hv
      exact absurd h0 (hplace _ hv).1
  · apply h.next
    · rw [hleft.capacity, hleft.disk]
      exact hsane
    · rw [hleft.disk]
      exact hsb
    · rw [hleft.disk, hlogged]
      exact fun hl => ⟨hl, fun x hx => habove x (by omega)⟩
    · intro c hc
      rw [hleft.disk, habove _ le_rfl] at hc
      exact h.control c hc

theorem left_files (reads : List ReadFate) :
    Left b (b.after .files (b.run .files (b.device reads)))
      (stage3c (UInt64.ofNat b.capacity) (!b.display) (b.device reads)).2 [] :=
  left_pure rfl

/-- Without a format the crash test spares the disk. -/
theorem files_goOn (h : b.Intact slot cp) (hno : ¬Formats reads b.disk (!b.display)) :
    Spares (adopt (b.disk SB_SECTOR) slot cp) (b.after .files (b.run .files (b.device reads))) ∧
      ∃ slot' cp', (b.after .files (b.run .files (b.device reads))).Intact slot' cp' := by
  have h4 : TEST_STATE_SECTOR = 4 := rfl
  have hspill := h.sane.bounds.spill
  apply goes_spares h (left_files reads) rfl (d := b.device reads) rfl rfl
  apply frame_stage3c (d := b.device reads) _ h.sane.superblock h.sane.root h.sane.sound hno
  show TEST_STATE_SECTOR < b.capacity
  omega

/-- What a format and the writes after it leave of a disk with the regions of `f`. -/
structure Reformatted (n : ℕ) (f : Fs) (d : Device) : Prop where
  sane : ∃ slot cp, Sane n d.disk slot cp
  auditStart : ∀ slot cp, (adopt (d.disk SB_SECTOR) slot cp).auditStart = f.auditStart
  otaStart : ∀ slot cp, (adopt (d.disk SB_SECTOR) slot cp).otaStart = f.otaStart
  audit : d.disk f.auditStart.toNat = blankSector
  ota : d.disk f.otaStart.toNat = blankSector
  superblock : (SB_SECTOR, d.disk SB_SECTOR) ∈ d.trace
  slotB : (CP_SECTORS 1, blankSector) ∈ d.trace
  control : (f.otaStart.toNat, blankSector) ∈ d.trace

theorem sane_relaid (d : Device) (len : UInt64) {total spill audit ota : UInt64}
    (hgeo : Geometry total spill audit ota) :
    Sane total.toNat (relaid d total len spill audit ota).disk 0 Checkpoint.new := by
  obtain ⟨hsb, hroot, -, -⟩ := relaid_disk len hgeo d
  refine ⟨⟨total, len, spill, audit, ota, hsb, hgeo, rfl⟩, hroot, Checkpoint.sound_new, ?_⟩
  rw [hsb, hgeo.logLimit]
  exact hgeo.logStart

theorem reformatted {d d' : Device} {total len spill audit ota : UInt64}
    (hgeo : Geometry total spill audit ota)
    (hframe : Frame (Goes (adopt (superblock total len spill audit ota) 0 Checkpoint.new))
      (relaid d total len spill audit ota) d') {f : Fs} (haudit : f.auditStart = audit)
    (hota : f.otaStart = ota) : Reformatted total.toNat f d' := by
  obtain ⟨hsb, -, hblankA, hblankO⟩ := relaid_disk len hgeo d
  have htrace : (relaid d total len spill audit ota).trace = d.trace ++
      [(SB_SECTOR, superblock total len spill audit ota), (CP_SECTORS 1, blankSector),
        (CP_SECTORS 0, Checkpoint.new.encode), (audit.toNat, blankSector),
        (ota.toNat, blankSector)] := by
    simp [relaid, Device.store]
  have hlanded : ∀ p ∈ [(SB_SECTOR, superblock total len spill audit ota),
      (CP_SECTORS 1, blankSector), (CP_SECTORS 0, Checkpoint.new.encode),
      (audit.toNat, blankSector), (ota.toNat, blankSector)], p ∈ d'.trace := by
    intro p hp
    apply hframe.mem_trace
    rw [htrace]
    exact List.mem_append_right _ hp
  rw [← hsb] at hframe
  obtain ⟨hsane, hsb', habove⟩ := (sane_relaid d len hgeo).frame hframe
  rw [hsb] at hsb' habove
  rw [hgeo.logLimit] at habove
  have hend := hgeo.otaEnd
  subst haudit hota
  constructor
  · exact hsane
  · intro slot cp
    rw [hsb', adopt_superblock]
  · intro slot cp
    rw [hsb', adopt_superblock]
  · rw [habove _ (by omega), hblankA]
  · rw [habove _ le_rfl, hblankO]
  · rw [hsb']
    exact hlanded _ (by simp)
  · exact hlanded _ (by simp)
  · exact hlanded _ (by simp)

theorem files_format (h : b.Intact slot cp) (hfmt : Formats reads b.disk (!b.display)) :
    Reformatted b.capacity (adopt (b.disk SB_SECTOR) slot cp)
      (stage3c (UInt64.ofNat b.capacity) (!b.display) (b.device reads)).2 := by
  obtain ⟨total, len, spill, audit, ota, hsb, hgeo, htotal⟩ := h.sane.laid
  have hofNat : UInt64.ofNat b.capacity = total := by rw [← htotal, UInt64.ofNat_toNat]
  obtain ⟨len', reads', hframe⟩ := stage3c_formats (d := b.device reads) hgeo rfl htotal.symm
    h.sane.superblock hfmt
  rw [hofNat, ← htotal]
  apply reformatted hgeo hframe <;>
  · rw [hsb, adopt_superblock]

/-- A blank sector holds no record. -/
theorem not_existing_blank {disk : Disk} {start sectors i : ℕ} (h : disk start = blankSector) :
    ¬Existing disk start sectors i := by
  rintro ⟨-, hmagic⟩
  exact Audit.not_magic_of_blank (k := 0) h (hmagic 0 (Nat.zero_le i))

theorem numbered_blank {disk : Disk} {start sectors : ℕ} (h : disk start = blankSector) :
    Numbered disk start sectors 0 := by
  refine ⟨⟨⟨Nat.zero_le _, ?_, ?_⟩, fun _ => Audit.not_magic_of_blank (k := 0) h⟩, ?_⟩ <;>
  · intro k hk
    omega

theorem Existing.zero {disk : Disk} {start sectors i : ℕ} (h : Existing disk start sectors i) :
    Existing disk start sectors 0 :=
  ⟨by have := h.1; omega, fun j hj => h.2 j (by omega)⟩

/-- A format of a disk that is not blank, or does not say so, loses something. -/
theorem files_harm (h : b.Intact slot cp) (hfmt : Formats reads b.disk (!b.display))
    (hs : Spares (adopt (b.disk SB_SECTOR) slot cp) (b.after .files (b.run .files (b.device reads)))) :
    b.display = false ∧ phaseIn (b.disk TEST_STATE_SECTOR) = 0 ∧
      Nothing b.disk (adopt (b.disk SB_SECTOR) slot cp) := by
  have hleft := left_files (b := b) reads
  have hre := files_format h hfmt
  obtain ⟨hfiles, hrecords, -, hcontrol, hlaidOut⟩ := hs
  rw [hleft.before] at hlaidOut hcontrol hrecords
  rw [hleft.landed] at hlaidOut hcontrol hfiles
  rw [hleft.disk] at hrecords
  obtain ⟨hdisplay, hphase⟩ := hlaidOut _ hre.superblock
  refine ⟨hdisplay, hphase, ?_, fun hex => ?_, ?_⟩
  · rw [List.eq_nil_iff_forall_not_mem]
    intro e he
    obtain ⟨cp', hdec, -⟩ := (hfiles e he).linked _ _ hre.slotB
    rw [decode_blank] at hdec
    cases hdec
  · have hslot := hrecords 0 hex
    have hmagic := hex.2 0 le_rfl
    rw [← hslot] at hmagic
    exact not_existing_blank (i := 0) hre.audit
      ⟨hex.1, fun j hj => by rw [Nat.le_zero.mp hj]; exact hmagic⟩
  · cases hc : Control.decode (b.disk (adopt (b.disk SB_SECTOR) slot cp).otaStart.toNat) with
    | none => rfl
    | some c =>
      obtain ⟨c', hfollows⟩ := hcontrol c hc
      obtain ⟨c'', hdec, -⟩ := hfollows.newer hre.control
      rw [Control.decode_blankSector] at hdec
      cases hdec

/-- A format of a disk that is blank, and says so, loses nothing. -/
theorem files_blank (h : b.Intact slot cp) (hfmt : Formats reads b.disk (!b.display))
    (hdisplay : b.display = false) (hphase : phaseIn (b.disk TEST_STATE_SECTOR) = 0)
    (hnothing : Nothing b.disk (adopt (b.disk SB_SECTOR) slot cp)) :
    Spares (adopt (b.disk SB_SECTOR) slot cp) (b.after .files (b.run .files (b.device reads))) ∧
      ∃ slot' cp', (b.after .files (b.run .files (b.device reads))).Intact slot' cp' := by
  have hleft := left_files (b := b) reads
  have hre := files_format h hfmt
  constructor
  · constructor
    · intro e he
      have he : e ∈ (adopt (b.disk SB_SECTOR) slot cp).cp.live := he
      rw [hnothing.files] at he
      cases he
    · rw [hleft.before]
      exact fun i hi => absurd hi.zero hnothing.records
    · rw [hleft.acks]
      exact fun seq hseq => absurd hseq List.not_mem_nil
    · intro c hc
      rw [hleft.before, hnothing.control] at hc
      cases hc
    · rw [hleft.display, hleft.before]
      exact fun _ _ => ⟨hdisplay, hphase⟩
  · obtain ⟨slot', cp', hsane⟩ := hre.sane
    refine ⟨slot', cp', ?_, fun _ => ⟨0, ?_⟩, fun c hc => ?_⟩
    · rw [hleft.capacity, hleft.disk]
      exact hsane
    · rw [hleft.disk, hre.auditStart]
      exact numbered_blank hre.audit
    · rw [hleft.disk, hre.otaStart, hre.ota, Control.decode_blankSector] at hc
      cases hc

/-! ## The action log -/

/-- What lands above the files spares them, and lays out nothing. -/
theorem above_spares {b' : Startup} {d : Device} {acks : List UInt64} (h : b.Intact slot cp)
    (hleft : Left b b' d acks)
    (habove : ∀ p ∈ d.trace, (adopt (b.disk SB_SECTOR) slot cp).otaStart.toNat ≤ p.1)
    (hrecords : ∀ i, Existing b.disk (adopt (b.disk SB_SECTOR) slot cp).auditStart.toNat
        (adopt (b.disk SB_SECTOR) slot cp).auditSectors.toNat i →
      Audit.slotAt d.disk (adopt (b.disk SB_SECTOR) slot cp).auditStart.toNat i =
        Audit.slotAt b.disk (adopt (b.disk SB_SECTOR) slot cp).auditStart.toNat i)
    (hnumbers : ∀ seq ∈ acks, ¬Existing b.disk (adopt (b.disk SB_SECTOR) slot cp).auditStart.toNat
      (adopt (b.disk SB_SECTOR) slot cp).auditSectors.toNat seq.toNat)
    (hcontrol : ∀ c, Control.decode (b.disk (adopt (b.disk SB_SECTOR) slot cp).otaStart.toNat) = some c →
      ∃ c', Follows (adopt (b.disk SB_SECTOR) slot cp) c d.trace c') :
    Spares (adopt (b.disk SB_SECTOR) slot cp) b' := by
  have hlow := h.sane.bounds.low
  have hhead : cp.logHead.toNat ≤ (adopt (b.disk SB_SECTOR) slot cp).otaStart.toNat := by
    rw [← h.sane.bounds.limit]
    exact h.sane.head
  constructor
  · intro e he
    rw [hleft.landed]
    exact kept_of_above h.sane.sound hhead he habove
  · rw [hleft.before, hleft.disk]
    exact hrecords
  · rw [hleft.before, hleft.acks]
    exact hnumbers
  · rw [hleft.before, hleft.landed]
    exact hcontrol
  · intro v hv
    rw [hleft.landed] at hv
    have hv := habove _ hv
    have h0 : SB_SECTOR = 0 := rfl
    dsimp only at hv
    omega

/-- A step that writes nothing spares the disk. -/
theorem idle_spares {b' : Startup} {d : Device} (h : b.Intact slot cp) (hleft : Left b b' d [])
    (hlogged : b'.logged = false → b.logged = false) (hdisk : d.disk = b.disk)
    (htrace : d.trace = []) :
    Spares (adopt (b.disk SB_SECTOR) slot cp) b' ∧ ∃ slot' cp', b'.Intact slot' cp' := by
  have hsame : b'.disk = b.disk := hleft.disk.trans hdisk
  constructor
  · apply above_spares h hleft
    · rw [htrace]
      exact fun p hp => absurd hp List.not_mem_nil
    · exact fun i _ => by rw [hdisk]
    · exact fun seq hseq => absurd hseq List.not_mem_nil
    · rw [htrace]
      exact fun c _ => ⟨c, .nil⟩
  · apply h.next
    · rw [hleft.capacity, hsame]
      exact ⟨slot, cp, h.sane⟩
    · rw [hsame]
    · rw [hsame]
      exact fun hl => ⟨hlogged hl, fun _ _ => rfl⟩
    · rw [hsame]
      exact h.control

/-- The log that `init` starts with, where `mount` goes well. -/
theorem logStage_mounted (h : b.Intact slot cp) (hm : ¬MountFails reads)
    (hlogged : b.logged = false) (es : List Audit.Entry) : ∃ n log reads',
      Numbered b.disk (adopt (b.disk SB_SECTOR) slot cp).auditStart.toNat
        (adopt (b.disk SB_SECTOR) slot cp).auditSectors.toNat n ∧
      log.start = (adopt (b.disk SB_SECTOR) slot cp).auditStart ∧
      log.sectors = (adopt (b.disk SB_SECTOR) slot cp).auditSectors ∧
      log.nextSeq.toNat = found (reads.drop 3) 0 n ∧ Ready log (b.device reads') ∧
      logStage es (b.device reads) = appendAll log es (b.device reads') ∧
      (found (reads.drop 3) 0 n < n →
        reads' = (reads.drop 3).drop ((reads.drop 3).idxOf .fail + 1)) := by
  have hspill := h.sane.bounds.spill
  obtain ⟨n, hn⟩ := h.log hlogged
  obtain ⟨log, reads', hinit, hstart, hsectors, hready, hseq, hdrop⟩ :=
    Numbered.init_reads (d := b.device (reads.drop 3)) hn h.sane.onDisk
  have hmount := mount_reads (d := b.device reads) (by show 2 < b.capacity; omega) h.sane.superblock
    h.sane.root hm
  have hfound := found_le (reads.drop 3) 0 n
  have hle := hn.le
  refine ⟨n, log, reads', hn, hstart, hsectors, hseq, ⟨?_, rfl, hready, ?_⟩, ?_, hdrop⟩
  · rw [hstart, hsectors]
    exact h.sane.onDisk
  · rw [hseq, hsectors]
    exact hfound.trans hle
  · unfold logStage
    rw [bind_of_ok (attempt_of_ok hmount)]
    exact bind_of_ok hinit

/-- How many records `init` finds where it misses some. -/
theorem found_lt_iff {rest : List ReadFate} {n : ℕ} :
    found rest 0 n < n ↔ .fail ∈ rest ∧ 4 * rest.idxOf .fail < n := by
  unfold found
  split_ifs with hfail <;> simp [hfail]

theorem found_eq {rest : List ReadFate} {n : ℕ} (h : found rest 0 n < n) :
    found rest 0 n = 4 * rest.idxOf .fail := by
  obtain ⟨hfail, hlt⟩ := found_lt_iff.mp h
  rw [found, if_pos hfail]
  omega

/-- From the end of the log on, and where nothing can be read, appends spare the disk. -/
theorem log_spares (h : b.Intact slot cp) (hlogged : b.logged = false) {es : List Audit.Entry}
    (hok : b.TrustsOn (adopt (b.disk SB_SECTOR) slot cp) (.log es, reads)) :
    Spares (adopt (b.disk SB_SECTOR) slot cp) (b.after (.log es) (b.run (.log es) (b.device reads))) ∧
      ∃ slot' cp', (b.after (.log es) (b.run (.log es) (b.device reads))).Intact slot' cp' := by
  have hbounds := h.sane.bounds
  by_cases hm : MountFails reads
  · -- the stage ends at once
    have hspill := hbounds.spill
    obtain ⟨e, reads', hmount⟩ := mount_failed (d := b.device reads)
      (by show 2 < b.capacity; omega) h.sane.superblock hm
    have hrun : b.run (.log es) (b.device reads) = (.ok [], b.device reads') := by
      show logStage es (b.device reads) = _
      rw [logStage, bind_of_ok (attempt_of_err hmount)]
      rfl
    exact idle_spares h (left_ok hrun) (fun hl => nomatch hl) rfl rfl
  obtain ⟨n, log, reads', hn, hstart, hsectors, hseq, hready, hstage, hdrop⟩ :=
    logStage_mounted h hm hlogged es
  by_cases hfound : found (reads.drop 3) 0 n < n
  · -- records are missed, and no append gets anywhere
    obtain ⟨hfail, hlt⟩ := found_lt_iff.mp hfound
    have hall := (hok.resolve_left hm) hfail (hn.existing_iff.mpr hlt)
    obtain ⟨reads'', hrefused⟩ := appendAll_refused es hready (by rw [hdrop hfound]; exact hall)
    exact idle_spares h (left_ok (p := .log es) (hstage.trans hrefused)) (fun hl => nomatch hl) rfl rfl
  · -- all records are found
    have hall : found (reads.drop 3) 0 n = n := by
      have := found_le (reads.drop 3) 0 n
      omega
    have hupdate := hbounds.update
    have hlow := hbounds.low
    obtain ⟨acks, d, happend, hacks, hslots, hframe⟩ := appendAll_spec es hready
    rw [hseq, hall] at hacks hslots
    rw [hstart] at hslots
    have hin : ∀ x v, InLog log x v → (adopt (b.disk SB_SECTOR) slot cp).otaStart.toNat + 129 ≤ x := by
      rintro x v ⟨hx, -⟩
      rw [hstart] at hx
      omega
    have htrace : ∀ p ∈ d.trace, (adopt (b.disk SB_SECTOR) slot cp).otaStart.toNat + 129 ≤ p.1 :=
      fun p hp => hin _ _ ((hframe.trace p hp).resolve_left List.not_mem_nil)
    have hbelow : ∀ x < (adopt (b.disk SB_SECTOR) slot cp).otaStart.toNat + 129,
        d.disk x = b.disk x := by
      intro x hx
      refine (hframe.disk x).resolve_right fun hlog => ?_
      have := hin x _ hlog
      omega
    have hleft := left_ok (b := b) (p := .log es) (hstage.trans happend)
    constructor
    · apply above_spares h hleft
      · intro p hp
        have := htrace p hp
        omega
      · exact fun i hi => hslots i (hn.existing_iff.mp hi)
      · intro seq hmem hex
        have := hacks seq hmem
        have := hn.existing_iff.mp hex
        omega
      · exact fun c _ => ⟨c, follows_outside fun p hp => .inr (htrace p hp)⟩
    · apply h.next
      · rw [hleft.capacity, hleft.disk]
        exact ⟨slot, cp, h.sane.congr fun x hx => hbelow x (by omega)⟩
      · rw [hleft.disk]
        exact hbelow _ (by show 0 < _; omega)
      · exact fun hl => nomatch hl
      · rw [hleft.disk]
        unfold ControlSane
        rw [hbelow _ (by omega)]
        exact h.control

/-- Where records are missed, and an append can read its sector, a number is given out
again. -/
theorem log_harm (h : b.Intact slot cp) (hlogged : b.logged = false) {es : List Audit.Entry}
    (hs : Spares (adopt (b.disk SB_SECTOR) slot cp)
      (b.after (.log es) (b.run (.log es) (b.device reads)))) :
    b.TrustsOn (adopt (b.disk SB_SECTOR) slot cp) (.log es, reads) := by
  refine or_iff_not_imp_left.mpr fun hm hfail hex => ?_
  by_contra hreads
  obtain ⟨n, log, reads', hn, hstart, hsectors, hseq, hready, hstage, hdrop⟩ :=
    logStage_mounted h hm hlogged es
  have hlt := hn.existing_iff.mp hex
  have hfound := found_lt_iff.mpr ⟨hfail, hlt⟩
  have hle := hn.le
  obtain ⟨acks, d, happend, hmem⟩ := appendAll_reuses es hready
    (by rw [hseq, hsectors]; omega) (by rw [hdrop hfound]; exact hreads)
  have hleft := left_ok (b := b) (p := .log es) (hstage.trans happend)
  have hnumbers := hs.numbers
  rw [hleft.acks, hleft.before] at hnumbers
  apply hnumbers _ hmem
  rw [hseq, found_eq hfound]
  exact hex

/-! ## The update service -/

variable (confirm : Bool) (offered : Option (UInt64 × Bool))

theorem left_update (reads : List ReadFate) :
    Left b (b.after (.update confirm offered) (b.run (.update confirm offered) (b.device reads)))
      (stage7c confirm offered (b.device reads)).2 [] :=
  left_pure rfl

theorem Startup.Intact.ground (h : b.Intact slot cp) (reads : List ReadFate) :
    Ground (adopt (b.disk SB_SECTOR) slot cp) slot cp (b.device reads) := by
  have hbounds := h.sane.bounds
  have hupdate := hbounds.update
  have haudit := hbounds.audit
  have hspill := hbounds.spill
  refine ⟨rfl, ?_, h.sane.superblock, h.sane.root, ?_, rfl, rfl⟩
  · show 2 < b.capacity
    omega
  · show _ ≤ b.capacity
    omega

/-- What the service writes stays in the update region, and leaves a control block that it
can go on with. -/
theorem served_spares {b' : Startup} {d : Device} (h : b.Intact slot cp) (hleft : Left b b' d [])
    (hlogged : b'.logged = b.logged)
    (hserved : Served (adopt (b.disk SB_SECTOR) slot cp) b.disk d.disk d.trace)
    (hcontrol : ∀ c, Control.decode (b.disk (adopt (b.disk SB_SECTOR) slot cp).otaStart.toNat) = some c →
      ∃ c', Follows (adopt (b.disk SB_SECTOR) slot cp) c d.trace c') :
    Spares (adopt (b.disk SB_SECTOR) slot cp) b' ∧ ∃ slot' cp', b'.Intact slot' cp' := by
  have hupdate := h.sane.bounds.update
  have hlow := h.sane.bounds.low
  have habove : ∀ x, (adopt (b.disk SB_SECTOR) slot cp).auditStart.toNat ≤ x → d.disk x = b.disk x :=
    fun x hx => hserved.outside x (.inr (by omega))
  constructor
  · apply above_spares h hleft
    · exact fun p hp => (hserved.inside p hp).1
    · exact fun i _ => slotAt_congr (habove _ (by omega))
    · exact fun seq hseq => absurd hseq List.not_mem_nil
    · exact hcontrol
  · apply h.next
    · rw [hleft.capacity, hleft.disk]
      exact ⟨slot, cp, h.sane.congr fun x hx => hserved.outside x (.inl (by omega))⟩
    · rw [hleft.disk]
      exact hserved.outside _ (.inl (by show 0 < _; omega))
    · rw [hleft.disk, hlogged]
      exact fun hl => ⟨hl, habove⟩
    · rw [hleft.disk]
      exact hserved.control

/-- Where it reads the control block, or there is none, the service spares the disk. -/
theorem update_spares (h : b.Intact slot cp)
    (hok : b.TrustsOn (adopt (b.disk SB_SECTOR) slot cp) (.update confirm offered, reads)) :
    Spares (adopt (b.disk SB_SECTOR) slot cp)
        (b.after (.update confirm offered) (b.run (.update confirm offered) (b.device reads))) ∧
      ∃ slot' cp', (b.after (.update confirm offered)
        (b.run (.update confirm offered) (b.device reads))).Intact slot' cp' := by
  have hleft := left_update confirm offered (b := b) reads
  have hground := h.ground reads
  by_cases hm : MountFails reads
  · obtain ⟨reads', hrun⟩ := stage7c_unmounted confirm offered hground hm
    rw [hrun] at hleft
    exact idle_spares h hleft id rfl rfl
  cases hc : Control.decode (b.disk (adopt (b.disk SB_SECTOR) slot cp).otaStart.toNat) with
  | none =>
    refine served_spares h hleft rfl (stage7c_begins confirm offered hground hm hc) fun c hc' => ?_
    rw [hc] at hc'
    cases hc'
  | some c =>
    have hread : reads[3]? ≠ some .fail := by
      refine (hok.resolve_left hm).resolve_right fun hnone => ?_
      rw [hc] at hnone
      cases hnone
    obtain ⟨hseq, hsingle⟩ := h.control c hc
    obtain ⟨c', hat⟩ := stage7c_follows confirm offered hground hm hread hc hseq hsingle
    refine served_spares h hleft rfl hat.served fun c₁ hc₁ => ?_
    obtain rfl : c = c₁ := Option.some.inj (hc.symm.trans hc₁)
    obtain ⟨tr', htr, hfollows⟩ := hat.follows
    rw [htr]
    exact ⟨c', hfollows⟩

/-- Where it cannot read the control block that is there, the service writes over it. -/
theorem update_harm (h : b.Intact slot cp)
    (hs : Spares (adopt (b.disk SB_SECTOR) slot cp)
      (b.after (.update confirm offered) (b.run (.update confirm offered) (b.device reads)))) :
    b.TrustsOn (adopt (b.disk SB_SECTOR) slot cp) (.update confirm offered, reads) := by
  refine or_iff_not_imp_left.mpr fun hm => or_iff_not_imp_left.mpr fun hread => ?_
  have hleft := left_update confirm offered (b := b) reads
  obtain ⟨c', hseq', hmem⟩ := stage7c_restarts confirm offered (h.ground reads) h.sane.lt hm (not_not.mp hread)
  cases hc : Control.decode (b.disk (adopt (b.disk SB_SECTOR) slot cp).otaStart.toNat) with
  | none => rfl
  | some c =>
    have hcontrol := hs.control
    rw [hleft.before, hleft.landed] at hcontrol
    obtain ⟨c'', hfollows⟩ := hcontrol c hc
    obtain ⟨c₁, hdec, hlt⟩ := hfollows.newer hmem
    rw [Control.decode_encode] at hdec
    obtain rfl := Option.some.inj hdec
    have hseq := (h.control c hc).1
    omega

end Paths

/-! ## A whole boot -/

section Boot

variable {b b' : Startup} {a : Path × List ReadFate} {slot : Fin 2} {cp : Checkpoint}

theorem step_eq (hs : b.step a = some b') :
    b.Runs a.1 ∧ b' = b.after a.1 (b.run a.1 (b.device a.2)) := by
  unfold Startup.step at hs
  split_ifs at hs with hruns
  exact ⟨hruns, (Option.some.inj hs).symm⟩

theorem trusts_iff (h : b.Intact slot cp) (hruns : b.Runs a.1) :
    b.Trusts a ↔ b.TrustsOn (adopt (b.disk SB_SECTOR) slot cp) a := by
  constructor
  · exact fun ht => ht hruns _ ⟨slot, cp, h.sane.root, rfl⟩
  · intro ht _ f hf
    rw [(finds_iff h.sane.root f).mp hf]
    exact ht

theorem harmless_iff (h : b.Intact slot cp) (hbefore : b'.before = b.disk) :
    b'.Harmless ↔ Spares (adopt (b.disk SB_SECTOR) slot cp) b' := by
  unfold Startup.Harmless
  rw [hbefore]
  constructor
  · exact fun hall => hall _ ⟨slot, cp, h.sane.root, rfl⟩
  · intro hspares f hf
    rw [(finds_iff h.sane.root f).mp hf]
    exact hspares

/-- A step that meets the condition spares the disk, and leaves it intact. -/
theorem trusts_spares (h : b.Intact slot cp) (hruns : b.Runs a.1)
    (hok : b.TrustsOn (adopt (b.disk SB_SECTOR) slot cp) a) :
    Spares (adopt (b.disk SB_SECTOR) slot cp) (b.after a.1 (b.run a.1 (b.device a.2))) ∧
      ∃ slot' cp', (b.after a.1 (b.run a.1 (b.device a.2))).Intact slot' cp' := by
  obtain ⟨p, reads⟩ := a
  cases p with
  | files =>
    by_cases hfmt : Formats reads b.disk (!b.display)
    · obtain ⟨hdisplay, hphase, hnothing⟩ := hok hfmt
      exact files_blank h hfmt hdisplay hphase hnothing
    · exact files_goOn h hfmt
  | log es => exact log_spares h hruns.2 hok
  | update confirm offered => exact update_spares confirm offered h hok

/-- A step that spares the disk meets the condition. -/
theorem spares_trusts (h : b.Intact slot cp) (hruns : b.Runs a.1)
    (hs : Spares (adopt (b.disk SB_SECTOR) slot cp) (b.after a.1 (b.run a.1 (b.device a.2)))) :
    b.TrustsOn (adopt (b.disk SB_SECTOR) slot cp) a := by
  obtain ⟨p, reads⟩ := a
  cases p with
  | files => exact fun hfmt => files_harm h hfmt hs
  | log es => exact log_harm h hruns.2 hs
  | update confirm offered => exact update_harm confirm offered h hs

/-- A boot that has just begun has harmed nothing. -/
theorem Startup.Start.harmless (h : b.Start) : b.Harmless := by
  intro f _
  obtain ⟨-, hbefore, hlanded, hacks⟩ := h
  constructor
  · rw [hlanded]
    exact fun e _ => ⟨fun p hp => absurd hp List.not_mem_nil, fun _ _ hv => absurd hv List.not_mem_nil⟩
  · rw [hbefore]
    exact fun _ _ => rfl
  · rw [hacks]
    exact fun _ hseq => absurd hseq List.not_mem_nil
  · rw [hlanded]
    exact fun c _ => ⟨c, .nil⟩
  · rw [hlanded]
    exact fun _ hv => absurd hv List.not_mem_nil

/-- Throughout a boot the kernel spares what is on the disk exactly if in each of its steps
what it makes of the reads that failed is true. -/
theorem spares_iff_trusts (hs : b.Start) (acts : List (Path × List ReadFate)) :
    Run.Throughout Startup.step Startup.Harmless b acts ↔
      Run.Meets Startup.step Startup.Trusts b acts := by
  apply Run.throughout_iff_meets (fun b => ∃ slot cp, b.Intact slot cp)
  · rintro b a b' ⟨slot, cp, h⟩ hok hstep
    obtain ⟨hruns, rfl⟩ := step_eq hstep
    exact (trusts_spares h hruns ((trusts_iff h hruns).mp hok)).2
  · rintro b a b' ⟨slot, cp, h⟩ - hstep
    obtain ⟨hruns, rfl⟩ := step_eq hstep
    rw [harmless_iff h rfl, trusts_iff h hruns]
    exact ⟨spares_trusts h hruns, fun hok => (trusts_spares h hruns hok).1⟩
  · intro b a _ hstep hruns
    rw [Startup.step, if_pos hruns] at hstep
    cases hstep
  · exact hs.intact
  · exact hs.harmless

end Boot

/-! ## A second boot -/

/-- A boot that begins on a disk. -/
def bootOf (capacity : ℕ) (disk : Disk) : Startup := ⟨capacity, false, disk, true, false, disk, [], []⟩

section Second

variable {b : Startup} {slot : Fin 2} {cp : Checkpoint} {disk : Disk}

theorem start_bootOf {n : ℕ} (h : (bootOf n disk).Intact slot cp) : (bootOf n disk).Start :=
  ⟨⟨slot, cp, h⟩, rfl, rfl, rfl⟩

/-- On a disk that was just laid out there is no control block. -/
theorem intact_relaid {d : Device} {total len spill audit ota : UInt64}
    (hgeo : Geometry total spill audit ota)
    (hdisk : disk = (relaid d total len spill audit ota).disk) :
    (bootOf total.toNat disk).Intact 0 Checkpoint.new ∧
      Control.decode (disk (adopt (disk SB_SECTOR) 0 Checkpoint.new).otaStart.toNat) = none := by
  obtain ⟨hsb, -, haudit, hota⟩ := relaid_disk len hgeo d
  have hsane := sane_relaid d len hgeo
  rw [← hdisk] at hsb haudit hota hsane
  have hadopt : adopt (disk SB_SECTOR) 0 Checkpoint.new =
      ⟨Checkpoint.new, spill, SPILL_SECTORS, audit, AUDIT_SECTORS, ota, OTA_SECTORS, 0, total⟩ := by
    rw [hsb, adopt_superblock]
  have hnone : Control.decode (disk (adopt (disk SB_SECTOR) 0 Checkpoint.new).otaStart.toNat) =
      none := by
    rw [hadopt, hota, Control.decode_blankSector]
  refine ⟨⟨hsane, fun _ => ⟨0, ?_⟩, fun c hc => ?_⟩, hnone⟩
  · apply numbered_blank
    show disk (adopt (disk SB_SECTOR) 0 Checkpoint.new).auditStart.toNat = blankSector
    rw [hadopt]
    exact haudit
  · rw [show (bootOf total.toNat disk).disk = disk from rfl, hnone] at hc
    cases hc

/-- The boot after one that initialised the update service starts with a control block. -/
theorem intact_served (h : b.Intact slot cp) (hlogged : b.logged = false)
    (hnone : Control.decode (b.disk (adopt (b.disk SB_SECTOR) slot cp).otaStart.toNat) = none)
    (hdisk : disk = (stage7c true none (b.device [])).2.disk) :
    ∃ slot' cp' c, (bootOf b.capacity disk).Intact slot' cp' ∧
      Control.decode (disk (adopt (disk SB_SECTOR) slot' cp').otaStart.toNat) = some c := by
  have hm : ¬MountFails [] := by decide
  have hground := h.ground []
  have hlow := h.sane.bounds.low
  obtain ⟨-, slot', cp', hsane, hlog, hcontrol⟩ := update_spares true none h
    (show b.TrustsOn _ (.update true none, []) from .inr (.inl nofun))
  obtain ⟨c, hc⟩ := stage7c_fresh true hground h.sane.lt hm hnone
  have hleft := left_update true none (b := b) []
  have houtside := (stage7c_begins true none hground hm hnone).outside
  have hafter := hleft.disk
  rw [← hdisk] at hc houtside hafter
  have hsb : disk SB_SECTOR = b.disk SB_SECTOR := houtside _ (.inl (by show 0 < _; omega))
  have hota : (adopt (disk SB_SECTOR) slot' cp').otaStart =
      (adopt (b.disk SB_SECTOR) slot cp).otaStart := by
    rw [hsb]
    rfl
  unfold LogSane at hlog
  rw [hafter] at hsane hcontrol hlog
  refine ⟨slot', cp', c, ⟨?_, fun _ => hlog hlogged, hcontrol⟩, ?_⟩
  · rw [hleft.capacity] at hsane
    exact hsane
  · rw [hota, hc, Control.decode_encode]

/-- A control block that cannot be read is lost. -/
theorem restarts_harm {c : Control} (h : b.Intact slot cp) (hup : b.up = true)
    (hc : Control.decode (b.disk (adopt (b.disk SB_SECTOR) slot cp).otaStart.toNat) = some c) :
    ¬Run.Throughout Startup.step Startup.Harmless b
      [(.update true none, [.ok, .ok, .ok, .fail])] := by
  intro hall
  have hharmless := hall.2 _ (show b.step (.update true none, [.ok, .ok, .ok, .fail]) = _
    from if_pos hup)
  have hspares := (harmless_iff h rfl).mp hharmless
  rcases update_harm true none h hspares with hm | hread | hnone
  · exact absurd hm (by decide)
  · exact hread rfl
  · rw [hc] at hnone
    cases hnone

end Second

/-- The first boot on a disk of 20000 sectors that `format` just laid out. -/
def firstBoot : Startup := bootOf 20000 smallDisk.disk

/-- The boot after it, once the update service has been initialised. -/
def secondBoot : Startup := bootOf 20000 (stage7c true none (firstBoot.device [])).2.disk

/-- What `format` left on the small disk. -/
theorem smallDisk_relaid : ∃ total len spill audit ota d, Geometry total spill audit ota ∧
    total.toNat = 20000 ∧ smallDisk.disk = (relaid d total len spill audit ota).disk := by
  have hgeo : Geometry 20000 3616 1568 1439 := ⟨by decide, by decide, by decide, by decide⟩
  obtain ⟨d', hfmt, -, hdisk⟩ := format_smallDisk
  obtain ⟨len, hrelaid⟩ := format_relaid (d := { capacity := 20000, disk := fun _ => blankSector })
    hgeo rfl le_rfl
  rw [hfmt] at hrelaid
  exact ⟨20000, len, 3616, 1568, 1439, _, hgeo, rfl, by rw [hdisk, (Prod.mk.inj hrelaid).2]⟩

theorem intact_secondBoot : ∃ slot cp c, secondBoot.Intact slot cp ∧
    Control.decode (secondBoot.disk (adopt (secondBoot.disk SB_SECTOR) slot cp).otaStart.toNat) =
      some c := by
  obtain ⟨total, len, spill, audit, ota, d, hgeo, htotal, hdisk⟩ := smallDisk_relaid
  obtain ⟨hfirst, hnone⟩ := intact_relaid hgeo hdisk
  rw [htotal] at hfirst
  -- the disk stays a variable: its value is a whole boot
  have hall : ∀ disk, disk = (stage7c true none (firstBoot.device [])).2.disk →
      ∃ slot cp c, (bootOf 20000 disk).Intact slot cp ∧ Control.decode ((bootOf 20000 disk).disk
        (adopt ((bootOf 20000 disk).disk SB_SECTOR) slot cp).otaStart.toNat) = some c :=
    fun disk hdisk => intact_served (b := firstBoot) hfirst rfl hnone hdisk
  exact hall _ rfl

theorem start_secondBoot : secondBoot.Start := by
  obtain ⟨slot, cp, -, hintact, -⟩ := intact_secondBoot
  exact start_bootOf hintact

/-- The second boot reads its log and its control block, whatever comes after. -/
theorem spares_secondBoot : Run.Throughout Startup.step Startup.Harmless secondBoot
    [(.log [], []), (.update true none, [.ok, .ok, .ok, .ok, .fail])] := by
  refine (spares_iff_trusts start_secondBoot _).mpr ⟨?_, fun b _ => ⟨?_, fun _ _ => trivial⟩⟩
  · exact fun _ f _ => .inr fun hfail => absurd hfail List.not_mem_nil
  · exact fun _ f _ => .inr (.inl (by decide))

/-- The second boot cannot read its control block, and starts over. -/
theorem secondBoot_restarts : secondBoot.Start ∧
    ¬Run.Throughout Startup.step Startup.Harmless secondBoot
      [(.update true none, [.ok, .ok, .ok, .fail])] := by
  obtain ⟨slot, cp, c, hintact, hc⟩ := intact_secondBoot
  exact ⟨start_secondBoot, restarts_harm hintact rfl hc⟩

end JungeyOs.Boot
