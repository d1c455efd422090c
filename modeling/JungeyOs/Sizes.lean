import JungeyOs.Ota.PowerCuts
import JungeyOs.Regions

/-!
# Disks of every size

`format` (`kernel/src/fs.rs`, lines 220–256) takes the reserved regions off the end of the disk by
a chain of differences of `u64`. The two profiles of `Cargo.toml` differ in what a difference does
that does not fit: `dev` panics, and `release` wraps around.

Results:
* `format_eq`: where every difference fits, the profiles agree.
* `mountable_of_format`: a disk on which every difference fits can be mounted after `format`.
* `format_sound_iff`: exactly the sizes at which `format` refuses or leaves a sound filesystem.
-/

namespace JungeyOs.Sizes

open JungeyOs.Jlfs JungeyOs.Regions Blk

inductive Profile
  | dev
  | release
  deriving DecidableEq

/-- `a - b` on `u64`. -/
def Profile.sub (p : Profile) (a b : UInt64) : Blk UInt64 :=
  match p with
  | .dev => Blk.subU64 a b
  | .release => pure (a - b)

/-- `format` (lines 220–256) in a profile. -/
def format (p : Profile) (totalSectors : UInt64) : Blk Unit := do
  let spillStart ← p.sub totalSectors SPILL_SECTORS
  let auditStart ← p.sub spillStart AUDIT_SECTORS
  let otaStart ← p.sub auditStart OTA_SECTORS
  let logLen ← p.sub otaStart LOG_START
  layDown totalSectors logLen spillStart auditStart otaStart

/-- `mount` finds an empty directory, and the regions are apart and within the disk. -/
def Mountable (d : Device) : Prop :=
  ∃ f, mount d = (.ok f, d) ∧ f.files = [] ∧
    (∀ r r' : Region, r ≠ r' → Disjoint (r.sectors f) (r'.sectors f)) ∧
    ∀ (r : Region) (x : ℕ), x ∈ r.sectors f → x < d.capacity

/-- On every disk of this size, `format` returns `Err` or leaves a filesystem that can be mounted,
unless the power goes. -/
def Sound (p : Profile) (total : UInt64) : Prop :=
  ∀ (d : Device) (r : Exit Unit) (d' : Device), d.capacity = total.toNat →
    format p total d = (r, d') → r ≠ .halted .powerOff →
      (∃ e, r = .err e) ∨ ∀ e : Device, e.capacity = total.toNat → e.disk = d'.disk →
        e.reads = [] → Mountable e

/-- The sectors that are set aside for the spill, the action log and the updates. -/
def RESERVED : ℕ := SPILL_SECTORS.toNat + AUDIT_SECTORS.toNat + OTA_SECTORS.toNat

section

variable {p : Profile} {total : UInt64} {d d' : Device}

/-! ## Differences -/

theorem sub_of_le {a b : UInt64} (h : b.toNat ≤ a.toNat) (p : Profile) (d : Device) :
    p.sub a b d = (.ok (a - b), d) ∧ (a - b).toNat = a.toNat - b.toNat := by
  refine ⟨?_, UInt64.toNat_sub_of_le _ _ (UInt64.le_iff_toNat_le.mpr h)⟩
  cases p with
  | dev =>
    show Blk.subU64 a b d = _
    unfold Blk.subU64
    rw [if_pos h]
    rfl
  | release => rfl

/-- Where every difference fits, the profiles agree. -/
theorem format_eq (h : RESERVED + LOG_START.toNat ≤ total.toNat) (p : Profile) (d : Device) :
    ∃ len spill audit ota, Geometry total spill audit ota ∧
      format p total d = layDown total len spill audit ota d ∧
      Jlfs.format total d = layDown total len spill audit ota d := by
  have h0 : RESERVED = 18561 := rfl
  have h1 : SPILL_SECTORS.toNat = 16384 := rfl
  have h2 : AUDIT_SECTORS.toNat = 2048 := rfl
  have h3 : OTA_SECTORS.toNat = 129 := rfl
  have h4 : LOG_START.toNat = 8 := rfl
  have hspill := fun p => sub_of_le (a := total) (b := SPILL_SECTORS) (by omega) p d
  have hspillEq := (hspill p).2
  generalize hs : total - SPILL_SECTORS = spill at hspill hspillEq
  have haudit := fun p => sub_of_le (a := spill) (b := AUDIT_SECTORS) (by omega) p d
  have hauditEq := (haudit p).2
  generalize ha : spill - AUDIT_SECTORS = audit at haudit hauditEq
  have hota := fun p => sub_of_le (a := audit) (b := OTA_SECTORS) (by omega) p d
  have hotaEq := (hota p).2
  generalize ho : audit - OTA_SECTORS = ota at hota hotaEq
  have hlen := fun p => sub_of_le (a := ota) (b := LOG_START) (by omega) p d
  have hboth : ∀ p, format p total d = layDown total (ota - LOG_START) spill audit ota d := by
    intro p
    unfold format
    rw [bind_of_ok (hspill p).1, bind_of_ok (haudit p).1, bind_of_ok (hota p).1,
      bind_of_ok (hlen p).1]
  exact ⟨ota - LOG_START, spill, audit, ota, ⟨by omega, by omega, by omega, by omega⟩, hboth p,
    hboth .dev⟩

/-! ## The writes -/

/-- Unless the power goes, the writes end with `Ok` or with `Err`. -/
theorem layDown_returns {len spill audit ota : UInt64} {r : Exit Unit}
    (h : layDown total len spill audit ota d = (r, d')) (hpower : r ≠ .halted .powerOff) :
    (∃ e, r = .err e) ∨ r = .ok () := by
  have hwrite : ∀ (sector : ℕ) (data : Sector) (m : Blk Unit), (∀ d, (m d).1 ≠ .halted .panic) →
      ∀ d, ((Blk.writeSector sector data >>= fun _ => m) d).1 ≠ .halted .panic := by
    intro sector data m hm d
    rcases writeSector_cases sector data d with ⟨hw, -⟩ | ⟨x, rfl | rfl, hw | ⟨hw, -⟩⟩
    · rw [bind_of_ok hw]
      exact hm _
    · simp [bind_of_err hw]
    · simp [bind_of_err hw]
    · simp [bind_of_halted hw]
    · simp [bind_of_halted hw]
  have hpanic : (layDown total len spill audit ota d).1 ≠ .halted .panic := by
    unfold layDown
    apply hwrite
    apply hwrite
    apply hwrite
    apply hwrite
    intro d
    rcases writeSector_cases ota.toNat blankSector d with ⟨hw, -⟩ | ⟨x, rfl | rfl, hw | ⟨hw, -⟩⟩
    all_goals
      rw [hw]
      simp
  rw [h] at hpanic
  match r with
  | .ok () => exact .inr rfl
  | .err e => exact .inl ⟨e, rfl⟩
  | .halted .panic => exact absurd rfl hpanic
  | .halted .powerOff => exact absurd rfl hpower

/-! ## Mounting what was laid out -/

theorem bounds_of_geometry {spill audit ota : UInt64} (h : Geometry total spill audit ota) :
    Bounds total.toNat ⟨Checkpoint.new, spill, SPILL_SECTORS, audit, AUDIT_SECTORS, ota, OTA_SECTORS,
      0, total⟩ := by
  have hlimit := h.logLimit (l := 0) 0 Checkpoint.new
  rw [adopt_superblock] at hlimit
  obtain ⟨h1, h2, h3, h4⟩ := h
  exact ⟨hlimit, h4, h3, h2, h1, rfl, rfl, rfl⟩

/-- A disk with room for every region can be mounted. -/
theorem mountable_of_format {u : Unit} (h : Jlfs.format total d = (.ok u, d'))
    (hcap : d.capacity = total.toNat) {e : Device} (hecap : e.capacity = total.toNat)
    (hdisk : e.disk = d'.disk) (hreads : e.reads = []) : Mountable e := by
  obtain ⟨-, -, -, -, -, -, -, hcap', -⟩ := format_disk h
  obtain ⟨spill, audit, ota, hgeo, hhome, -⟩ := Ota.home_of_format h (by omega)
  rw [show d'.capacity = e.capacity by omega, ← hdisk] at hhome
  have hb := bounds_of_geometry hgeo
  rw [← hecap] at hb
  exact ⟨_, hhome.mount hreads, rfl, fun r r' hne => regions_disjoint hb hne,
    fun r x hx => region_fits hb r hx⟩

theorem not_mountable_blank (h : d.disk SB_SECTOR = blankSector) : ¬Mountable d := by
  rintro ⟨f, hm, -⟩
  unfold mount at hm
  obtain ⟨sb, d1, hread, hm⟩ := bind_eq_ok hm
  obtain ⟨hsb, -⟩ := readSector_ok hread
  rw [hsb, h, if_pos (by rw [getU64_blank]; decide)] at hm
  cases hm

/-- An update region that reaches into the metadata. -/
theorem not_mountable_of_low {len spill audit ota : UInt64}
    (h : d.disk SB_SECTOR = superblock total len spill audit ota) (hota : ota.toNat < 8) :
    ¬Mountable d := by
  rintro ⟨f, hm, -, hdisjoint, -⟩
  obtain ⟨slot, cp, hf, -⟩ := mount_eq_ok hm
  rw [h, adopt_superblock] at hf
  have hne : Region.metadata ≠ Region.update := by decide
  apply Set.disjoint_left.mp (hdisjoint _ _ hne) (show ota.toNat ∈ Region.metadata.sectors f from
    ⟨Nat.zero_le _, hota⟩)
  rw [hf]
  refine ⟨le_rfl, ?_⟩
  show ota.toNat < ota.toNat + OTA_SECTORS.toNat
  have hsectors : OTA_SECTORS.toNat = 129 := rfl
  omega

/-! ## The sizes -/

/-- Where the regions and the start of the log fit. -/
theorem sound_of_fits (h : RESERVED + LOG_START.toNat ≤ total.toNat) (p : Profile) :
    Sound p total := by
  intro d r d' hcap hfmt hpower
  obtain ⟨len, spill, audit, ota, -, hp, hdev⟩ := format_eq h p d
  rw [hp] at hfmt
  rcases layDown_returns hfmt hpower with herr | rfl
  · exact .inl herr
  · rw [hfmt] at hdev
    exact .inr fun e hecap hdisk hreads => mountable_of_format hdev hcap hecap hdisk hreads

/-- `release` works out sectors that the disk does not have, and is refused there. -/
theorem sound_of_wrapped (h : total.toNat < RESERVED) : Sound .release total := by
  intro d r d' hcap hfmt hpower
  have hres : RESERVED = 18561 := rfl
  have h1 : SPILL_SECTORS.toNat = 16384 := rfl
  have h2 : AUDIT_SECTORS.toNat = 2048 := rfl
  have h3 : OTA_SECTORS.toNat = 129 := rfl
  have hlay : layDown total (total - SPILL_SECTORS - AUDIT_SECTORS - OTA_SECTORS - LOG_START)
      (total - SPILL_SECTORS) (total - SPILL_SECTORS - AUDIT_SECTORS)
      (total - SPILL_SECTORS - AUDIT_SECTORS - OTA_SECTORS) d = (r, d') := hfmt
  rcases layDown_returns hlay hpower with herr | rfl
  · exact .inl herr
  · obtain ⟨-, -, hota, -⟩ := layDown_ok hlay
    rw [UInt64.toNat_sub, UInt64.toNat_sub, UInt64.toNat_sub] at hota
    omega

/-- A blank disk of this size. -/
def blankDisk (total : UInt64) : Device := { capacity := total.toNat, disk := fun _ => blankSector }

/-- `dev` panics on a disk that is too small. -/
theorem not_sound_dev (h : total.toNat < RESERVED + LOG_START.toNat) : ¬Sound .dev total := by
  have hpanic : format .dev total (blankDisk total) = (.halted .panic, blankDisk total) := by
    have hres : RESERVED = 18561 := rfl
    have h1 : SPILL_SECTORS.toNat = 16384 := rfl
    have h2 : AUDIT_SECTORS.toNat = 2048 := rfl
    have h3 : OTA_SECTORS.toNat = 129 := rfl
    have h4 : LOG_START.toNat = 8 := rfl
    show (Blk.subU64 _ _ >>= _) _ = _
    rcases subU64_cases total SPILL_SECTORS (blankDisk total) with ⟨a, ha, ea, -⟩ | ⟨hp, -⟩
    · rw [bind_of_ok ha]
      show (Blk.subU64 _ _ >>= _) _ = _
      rcases subU64_cases a AUDIT_SECTORS (blankDisk total) with ⟨b, hb, eb, -⟩ | ⟨hp, -⟩
      · rw [bind_of_ok hb]
        show (Blk.subU64 _ _ >>= _) _ = _
        rcases subU64_cases b OTA_SECTORS (blankDisk total) with ⟨c, hc, ec, -⟩ | ⟨hp, -⟩
        · rw [bind_of_ok hc]
          show (Blk.subU64 _ _ >>= _) _ = _
          rcases subU64_cases c LOG_START (blankDisk total) with ⟨x, -, -, hle⟩ | ⟨hp, -⟩
          · omega
          · exact bind_of_halted hp
        · exact bind_of_halted hp
      · exact bind_of_halted hp
    · exact bind_of_halted hp
  intro hsound
  rcases hsound _ _ _ rfl hpanic (by simp) with ⟨e, he⟩ | hm
  · cases he
  · exact not_mountable_blank rfl (hm (blankDisk total) rfl rfl rfl)

/-- `release` puts the update region over the metadata where the log has no room. -/
theorem not_sound_release (hlow : RESERVED ≤ total.toNat)
    (hhigh : total.toNat < RESERVED + LOG_START.toNat) : ¬Sound .release total := by
  have hres : RESERVED = 18561 := rfl
  have h1 : SPILL_SECTORS.toNat = 16384 := rfl
  have h2 : AUDIT_SECTORS.toNat = 2048 := rfl
  have h3 : OTA_SECTORS.toNat = 129 := rfl
  have h4 : LOG_START.toNat = 8 := rfl
  have hspill := (sub_of_le (a := total) (b := SPILL_SECTORS) (by omega) .release
    (blankDisk total)).2
  have haudit := (sub_of_le (a := total - SPILL_SECTORS) (b := AUDIT_SECTORS) (by omega) .release
    (blankDisk total)).2
  have hota := (sub_of_le (a := total - SPILL_SECTORS - AUDIT_SECTORS) (b := OTA_SECTORS) (by omega)
    .release (blankDisk total)).2
  generalize hs : total - SPILL_SECTORS = spill at hspill haudit hota
  generalize ha : spill - AUDIT_SECTORS = audit at haudit hota
  generalize ho : audit - OTA_SECTORS = ota at hota
  have hcap : (blankDisk total).capacity = total.toNat := rfl
  obtain ⟨d', hd', -⟩ := layDown_healthy total (ota - LOG_START) spill audit ota
    (show (blankDisk total).writes = [] from rfl) (by omega) (by omega) (by omega)
  obtain ⟨-, -, -, -, hdisk⟩ := layDown_ok hd'
  have hfmt : format .release total (blankDisk total) = (.ok (), d') := by
    rw [← hd', ← ho, ← ha, ← hs]
    rfl
  intro hsound
  rcases hsound _ _ _ rfl hfmt (by simp) with ⟨e, he⟩ | hm
  · cases he
  · have hmount := hm { capacity := total.toNat, disk := d'.disk } rfl rfl rfl
    revert hmount
    have hS : SB_SECTOR = 0 := rfl
    by_cases h0 : ota.toNat = 0
    -- the boot control block is blanked on top of the superblock
    · apply not_mountable_blank
      show d'.disk SB_SECTOR = _
      rw [hdisk, laidOut, h0, hS, Function.update_self]
    · have hsb : d'.disk SB_SECTOR = superblock total (ota - LOG_START) spill audit ota := by
        rw [hdisk, laidOut, Function.update_of_ne (by omega), Function.update_of_ne (by omega),
          Function.update_of_ne (by omega), Function.update_of_ne (by omega), Function.update_self]
      exact not_mountable_of_low hsb (by omega)

/-- Exactly the sizes at which `format` refuses or leaves a sound filesystem: the regions fit with
the first sectors of the disk, or `release` lays out a disk that is short even of the regions. -/
theorem format_sound_iff (p : Profile) (total : UInt64) :
    Sound p total ↔
      RESERVED + LOG_START.toNat ≤ total.toNat ∨ p = .release ∧ total.toNat < RESERVED := by
  constructor
  · intro h
    by_contra hne
    obtain ⟨hfit, hshort⟩ := not_or.mp hne
    cases p with
    | dev => exact not_sound_dev (by omega) h
    | release =>
      have hge : ¬total.toNat < RESERVED := fun hlt => hshort ⟨rfl, hlt⟩
      exact not_sound_release (by omega) (by omega) h
  · rintro (h | ⟨rfl, h⟩)
    · exact sound_of_fits h p
    · exact sound_of_wrapped h

/-- A disk of 18561 sectors: the blank boot control block lands on the superblock. -/
theorem format_over_superblock : ¬Sound .release 18561 :=
  not_sound_release (by decide) (by decide)

end

end JungeyOs.Sizes
