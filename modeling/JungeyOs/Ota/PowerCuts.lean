import JungeyOs.BlkTriple
import JungeyOs.Lib.Run
import JungeyOs.Ota.Update

/-!
# Power cuts during updates

A machine that boots again and again from a disk that `format` laid out. A boot is
one run of `stage7c`; the power may go at any sector write of it, and then the next
boot starts on the disk as it was left.

Results:
* `stage7c_keeps`: a boot keeps `Inv`, wherever the power goes.
* `always_bootable`: once a control block was written, the one on the disk always
  decodes and a slot that it marks `Successful` holds the image it records.
-/

namespace JungeyOs.Ota

open JungeyOs.Bytes JungeyOs.Jlfs Blk

/-! ## What is on the disk -/

/-- The first sector of a slot. -/
def slotBase (f : Fs) (slot : Fin 2) : ℕ := f.otaStart.toNat + 1 + slot.val * 64

/-- The bytes of the image in a slot. -/
def slotImage (f : Fs) (disk : Disk) (slot : Fin 2) : ImageBytes := imageAt disk (slotBase f slot) 8

/-- The slot holds the image that the control block records for it. -/
structure Intact (f : Fs) (disk : Disk) (c : Control) (slot : Fin 2) : Prop where
  magic : getU64 (slotImage f disk slot) 0 = IMG_MAGIC
  digest : JungeyOs.digest (slotImage f disk slot).toList = c.digest slot
  version : imageVersion (slotImage f disk slot) = c.version slot

/-- `good` is the one slot that is marked `Successful`, and it is intact. -/
structure Good (f : Fs) (disk : Disk) (c : Control) (good : Fin 2) : Prop where
  successful : c.state good = .successful
  intact : Intact f disk c good
  only : c.state (1 - good) ≠ .successful

/-- There is something to fall back to. -/
def Safe (f : Fs) (disk : Disk) (c : Control) : Prop := ∃ good, Good f disk c good

/-- `mount` finds `f` on the disk, and the update region lies within it. -/
structure Home (capacity : ℕ) (f : Fs) (disk : Disk) : Prop where
  superblock : SuperblockOk (disk SB_SECTOR)
  root : Root disk 0 Checkpoint.new
  adopt : adopt (disk SB_SECTOR) 0 Checkpoint.new = f
  low : 8 ≤ f.otaStart.toNat
  fits : f.otaStart.toNat + 129 ≤ capacity

/-- `initialise` has not committed. -/
structure Uninitialised (f : Fs) (disk : Disk) (trace : List (ℕ × Sector)) : Prop where
  decode : Control.decode (disk f.otaStart.toNat) = none
  unwritten : ∀ sector, (f.otaStart.toNat, sector) ∉ trace

/-- `c` is the control block on the disk, and it is safe. -/
structure Current (f : Fs) (disk : Disk) (c : Control) : Prop where
  decode : Control.decode (disk f.otaStart.toNat) = some c
  safe : Safe f disk c

/-- What every sector write of every boot keeps. -/
def Inv (capacity : ℕ) (f : Fs) : DiskPred := fun disk trace =>
  Home capacity f disk ∧ (Uninitialised f disk trace ∨ ∃ c, Current f disk c)

/-! ## What a sector write leaves alone -/

section Writes

variable {capacity : ℕ} {f : Fs} {disk : Disk} {trace : List (ℕ × Sector)} {c : Control}
  {slot : Fin 2} {x : ℕ} {data : Sector}

theorem slotBase_le (f : Fs) (slot : Fin 2) : slotBase f slot ≤ f.otaStart.toNat + 65 := by
  unfold slotBase
  omega

theorem lt_slotBase (f : Fs) (slot : Fin 2) : f.otaStart.toNat < slotBase f slot := by
  unfold slotBase
  omega

/-- A sector outside the slot does not change its image. -/
theorem slotImage_update (data : Sector) (h : x < slotBase f slot ∨ slotBase f slot + 8 ≤ x) :
    slotImage f (Function.update disk x data) slot = slotImage f disk slot :=
  imageAt_congr 8 fun s hs => Function.update_of_ne (by omega) _ _

theorem Intact.update (h : Intact f disk c slot) (data : Sector)
    (hx : x < slotBase f slot ∨ slotBase f slot + 8 ≤ x) :
    Intact f (Function.update disk x data) c slot := by
  obtain ⟨h1, h2, h3⟩ := h
  rw [← slotImage_update data hx] at h1 h2 h3
  exact ⟨h1, h2, h3⟩

theorem Good.update (h : Good f disk c slot) (hx : x < slotBase f slot ∨ slotBase f slot + 8 ≤ x) :
    Good f (Function.update disk x data) c slot :=
  ⟨h.successful, h.intact.update data hx, h.only⟩

/-- A control block that records the same of every slot is as safe. -/
theorem Safe.congr {c' : Control} (h : Safe f disk c) (hs : c'.state = c.state)
    (hd : c'.digest = c.digest) (hv : c'.version = c.version) : Safe f disk c' := by
  obtain ⟨good, h1, ⟨h2, h3, h4⟩, h5⟩ := h
  exact ⟨good, by rw [hs, h1], ⟨h2, by rw [hd, h3], by rw [hv, h4]⟩, by rw [hs]; exact h5⟩

/-- A sector of the update region is not one of the filesystem's own. -/
theorem Home.update (h : Home capacity f disk) (hx : f.otaStart.toNat ≤ x) :
    Home capacity f (Function.update disk x data) := by
  have hlow := h.low
  have hkeep : ∀ y < 3, Function.update disk x data y = disk y :=
    fun y hy => Function.update_of_ne (by omega) _ _
  have h0 : Function.update disk x data SB_SECTOR = disk SB_SECTOR := hkeep 0 (by omega)
  have h1 : Function.update disk x data (CP_SECTORS 0) = disk (CP_SECTORS 0) := hkeep 1 (by omega)
  have h2 : Function.update disk x data (CP_SECTORS (1 - 0)) = disk (CP_SECTORS (1 - 0)) :=
    hkeep 2 (by omega)
  refine ⟨?_, ⟨?_, ?_⟩, ?_, hlow, h.fits⟩
  · rw [h0]; exact h.superblock
  · rw [h1]; exact h.root.live
  · rw [h2]; exact h.root.newest
  · rw [h0]; exact h.adopt

/-- A control block that is written is the one on the disk. -/
theorem Current.written (h : Safe f disk c) :
    Current f (Function.update disk f.otaStart.toNat c.encode) c := by
  obtain ⟨good, hg⟩ := h
  refine ⟨?_, good, hg.update (.inl (lt_slotBase f good))⟩
  rw [Function.update_self, Control.decode_encode]

end Writes

/-! ## The sector calls of an update -/

section Rules

variable {capacity : ℕ} {f : Fs} {P : DiskPred} {c : Control} {slot : Fin 2}

theorem Home.mount {d : Device} {f : Fs} (h : Home d.capacity f d.disk) (hr : d.reads = []) :
    mount d = (.ok f, d) := by
  have hlow := h.low
  have hfits := h.fits
  have hm := mount_of_root hr (by omega) h.superblock h.root
  rwa [h.adopt] at hm

/-- `mount` finds the same filesystem again. -/
theorem triple_mount {Q : Except String Fs → DiskPred} (hp : ∀ disk tr, P disk tr → Home capacity f disk)
    (hq : ∀ disk tr, P disk tr → Q (.ok f) disk tr) {C : DiskPred} :
    Triple capacity P (attempt mount) Q C := by
  intro d hs h
  have hhome := hp _ _ h
  rw [← hs.capacity] at hhome
  rw [attempt_of_ok (hhome.mount hs.reads)]
  exact ⟨hs, hq _ _ h⟩

/-- The control block of the disk is read. -/
theorem triple_readControl {Q : Option Control → DiskPred} {C : DiskPred}
    (hp : ∀ disk tr, P disk tr → Home capacity f disk)
    (hq : ∀ disk tr, P disk tr → Q (Control.decode (disk f.otaStart.toNat)) disk tr) :
    Triple capacity P (readControl f) Q C := by
  refine Triple.given (fun _ _ h => (hp _ _ h).fits) fun hfits => ?_
  unfold readControl
  refine Triple.bind (Q := fun r disk tr => r = .ok (disk f.otaStart.toNat) ∧ P disk tr)
    (Triple.attempt (triple_readSector (Q := fun raw disk tr => raw = disk f.otaStart.toNat ∧
      P disk tr) (by omega) fun _ _ h => ⟨rfl, h⟩) fun _ _ _ h => ⟨congrArg _ h.1, h.2⟩) fun r => ?_
  intro d hs h
  rw [h.1]
  exact ⟨hs, hq _ _ h.2⟩

theorem slotSector_ok {base : UInt64} {d d' : Device}
    (h : slotSector f slot d = (.ok base, d')) :
    base.toNat = slotBase f slot ∧ d' = d := by
  have hone : (1 : UInt64).toNat = 1 := rfl
  have hoff := toNat_slotOffset slot
  obtain ⟨first, d₁, hfirst, hbase⟩ := bind_eq_ok h
  obtain ⟨hsum, rfl⟩ := addU64_ok hfirst
  obtain ⟨hsum', rfl⟩ := addU64_ok hbase
  refine ⟨?_, rfl⟩
  rw [slotBase]
  omega

theorem slotSector_healthy (slot : Fin 2) (hfit : slotBase f slot < 2 ^ 64) (d : Device) :
    ∃ base : UInt64, slotSector f slot d = (.ok base, d) ∧ base.toNat = slotBase f slot := by
  have hone : (1 : UInt64).toNat = 1 := rfl
  have hoff := toNat_slotOffset slot
  rw [slotBase] at hfit
  obtain ⟨first, h1, e1⟩ := addU64_of_lt (a := f.otaStart) (b := 1) (by omega) d
  obtain ⟨base, h2, e2⟩ := addU64_of_lt (a := first)
    (b := UInt64.ofNat slot.val * OTA_SLOT_SECTORS) (by omega) d
  refine ⟨base, ?_, by rw [slotBase]; omega⟩
  unfold slotSector
  rw [bind_of_ok h1, h2]

/-- The first sector of a slot is computed. -/
theorem triple_slotSector {Q : UInt64 → DiskPred} {C : DiskPred}
    (hq : ∀ base disk tr, base.toNat = slotBase f slot → P disk tr → Q base disk tr)
    (hc : ∀ disk tr, P disk tr → C disk tr) : Triple capacity P (slotSector f slot) Q C := by
  have hoff := toNat_slotOffset slot
  have hone : (1 : UInt64).toNat = 1 := rfl
  unfold slotSector
  refine Triple.bind (Q := fun first disk tr => first.toNat = f.otaStart.toNat + 1 ∧ P disk tr)
    (triple_addU64 (fun c disk tr hsum h => ⟨by omega, h⟩) hc) fun first => Triple.assume fun hf => ?_
  exact triple_addU64 (fun c disk tr hsum h => hq c disk tr (by rw [slotBase]; omega) h) hc

/-- A control block is written over one that is safe to keep. -/
theorem triple_writeControl {Q : Except String Unit × Control → DiskPred}
    (hinv : ∀ disk tr, P disk tr → Inv capacity f disk tr)
    (hsafe : ∀ disk tr, P disk tr → Safe f disk c)
    (hq : ∀ disk tr seq, P disk tr →
      Q (.ok (), { c with seq := seq })
        (Function.update disk f.otaStart.toNat (Control.encode { c with seq := seq }))
        (tr ++ [(f.otaStart.toNat, Control.encode { c with seq := seq })])) :
    Triple capacity P (writeControl f c) Q (Inv capacity f) := by
  unfold writeControl
  refine Triple.bind (Q := fun _ => P) (triple_addU64 (fun _ _ _ _ h => h) hinv) fun seq =>
    Triple.given (fun _ _ h => (hinv _ _ h).1.fits) fun hfits => ?_
  refine Triple.bind (Q := fun r disk tr => ∃ disk₀ tr₀, P disk₀ tr₀ ∧ r = .ok () ∧
    disk = Function.update disk₀ f.otaStart.toNat (Control.encode { c with seq := seq }) ∧
    tr = tr₀ ++ [(f.otaStart.toNat, Control.encode { c with seq := seq })])
    (Triple.attempt (triple_writeSector (Q := fun _ disk tr => ∃ disk₀ tr₀, P disk₀ tr₀ ∧
      disk = Function.update disk₀ f.otaStart.toNat (Control.encode { c with seq := seq }) ∧
      tr = tr₀ ++ [(f.otaStart.toNat, Control.encode { c with seq := seq })]) (by omega)
      (fun disk tr h => ⟨disk, tr, h, rfl, rfl⟩) hinv fun disk tr h =>
        ⟨(hinv _ _ h).1.update le_rfl, .inr ⟨_, Current.written ((hsafe _ _ h).congr rfl rfl rfl)⟩⟩)
      ?_) fun r => Triple.pure ?_
  · rintro _ disk tr ⟨disk₀, tr₀, h, hdisk, htr⟩
    exact ⟨disk₀, tr₀, h, rfl, hdisk, htr⟩
  · rintro disk tr ⟨disk₀, tr₀, h, rfl, rfl, rfl⟩
    exact hq _ _ seq h

/-- An image is written into a slot that nothing depends on. -/
theorem triple_writeImage {img : ImageBytes} (hinv : ∀ disk tr, P disk tr → Inv capacity f disk tr)
    (hstable : ∀ disk tr x data, slotBase f slot ≤ x → x < slotBase f slot + 8 → P disk tr →
      P (Function.update disk x data) (tr ++ [(x, data)])) :
    Triple capacity P (writeImage f slot img)
      (fun _ disk tr => P disk tr ∧ slotImage f disk slot = img) (Inv capacity f) := by
  refine Triple.given (fun _ _ h => (hinv _ _ h).1.fits) fun hfits => ?_
  have hle := slotBase_le f slot
  unfold writeImage
  refine Triple.bind (Q := fun base disk tr => base.toNat = slotBase f slot ∧ P disk tr)
    (triple_slotSector (fun _ _ _ hb h => ⟨hb, h⟩) hinv) fun base => Triple.assume fun hbase => ?_
  refine Triple.post (Triple.conseq (Triple.forRange (k := 8) (I := fun s disk tr => P disk tr ∧
    ∀ k < s, disk (slotBase f slot + k) = slice img (k * SECTOR_SIZE) SECTOR_SIZE) fun s hs => ?_)
    fun _ _ h => ⟨h, fun k hk => absurd hk k.not_lt_zero⟩)
    fun _ _ _ h => ⟨h.1, imageAt_of_slices h.2⟩
  -- sector `s` of the image lands at its place; those before it stay
  have hofNat : (UInt64.ofNat s).toNat = s := by
    rw [UInt64.toNat_ofNat']
    omega
  refine Triple.bind (Q := fun pos disk tr => pos.toNat = slotBase f slot + s ∧ P disk tr ∧ ∀ k < s,
    disk (slotBase f slot + k) = slice img (k * SECTOR_SIZE) SECTOR_SIZE)
    (triple_addU64 (fun pos _ _ hsum h => ⟨by omega, h⟩) fun _ _ h => hinv _ _ h.1)
    fun pos => Triple.assume fun hpos => ?_
  rw [hpos]
  refine triple_writeSector (by omega) (fun disk tr h => ⟨?_, fun k hk => ?_⟩)
    (fun _ _ h => hinv _ _ h.1)
    fun disk tr h => hinv _ _ (hstable _ _ _ _ (by omega) (by omega) h.1)
  · exact hstable _ _ _ _ (by omega) (by omega) h.1
  · rcases Nat.lt_succ_iff_lt_or_eq.mp hk with hlt | rfl
    · rw [Function.update_of_ne (by omega)]
      exact h.2 k hlt
    · exact Function.update_self _ _ _

/-- The first sectors of a slot are read. -/
theorem triple_readImage (hhome : ∀ disk tr, P disk tr → Home capacity f disk) {C : DiskPred}
    (hc : ∀ disk tr, P disk tr → C disk tr) {base : UInt64} (hbase : base.toNat = slotBase f slot)
    {k : ℕ} (hk : k ≤ 8) :
    Triple capacity P (readImage base k)
      (fun img disk tr => img = imageAt disk (slotBase f slot) k ∧ P disk tr) C := by
  refine Triple.given (fun _ _ h => (hhome _ _ h).fits) fun hfits => ?_
  have hle := slotBase_le f slot
  induction k with
  | zero => exact Triple.pure fun _ _ h => ⟨rfl, h⟩
  | succ k ih =>
    have hofNat : (UInt64.ofNat k).toNat = k := by
      rw [UInt64.toNat_ofNat']
      omega
    refine Triple.bind (ih (by omega)) fun img => ?_
    refine Triple.bind (Q := fun pos disk tr => pos.toNat = slotBase f slot + k ∧
      img = imageAt disk (slotBase f slot) k ∧ P disk tr)
      (triple_addU64 (fun pos _ _ hsum h => ⟨by omega, h⟩) fun _ _ h => hc _ _ h.2)
      fun pos => Triple.assume fun hpos => ?_
    rw [hpos]
    refine Triple.bind (Q := fun sector disk tr => sector = disk (slotBase f slot + k) ∧
      img = imageAt disk (slotBase f slot) k ∧ P disk tr)
      (triple_readSector (by omega) fun _ _ h => ⟨rfl, h⟩) fun sector => Triple.pure ?_
    rintro disk tr ⟨rfl, rfl, h⟩
    exact ⟨rfl, h⟩

/-- An image is measured where it lies. -/
theorem triple_load (hhome : ∀ disk tr, P disk tr → Home capacity f disk) {C : DiskPred}
    (hc : ∀ disk tr, P disk tr → C disk tr) :
    Triple capacity P (attempt (load f slot))
      (fun r disk tr => r = measure (slotImage f disk slot) ∧ P disk tr) C := by
  unfold load
  refine Triple.attempt_bind (Q := fun base disk tr => base.toNat = slotBase f slot ∧ P disk tr)
    (triple_slotSector (fun _ _ _ hb h => ⟨hb, h⟩) hc) fun base => Triple.assume fun hbase => ?_
  refine Triple.attempt_bind (triple_readImage hhome hc hbase le_rfl) fun img => ?_
  cases hm : measure img with
  | error e =>
    refine Triple.attempt_fail ?_
    rintro disk tr ⟨rfl, h⟩
    exact ⟨hm.symm, h⟩
  | ok image =>
    refine Triple.attempt_pure ?_
    rintro disk tr ⟨rfl, h⟩
    exact ⟨hm.symm, h⟩

end Rules

/-! ## A boot -/

section Boot

variable {capacity : ℕ} {f : Fs}

/-- What `boot` leaves behind, by what it decided. -/
def Booted (f : Fs) : Control × Outcome → DiskPred
  | (_, .fresh), disk, tr => Uninitialised f disk tr
  | (c, .trying _ _ _ _), disk, _ =>
    Current f disk c ∧ c.state c.active = .unverified ∧ Intact f disk c c.active
  | (c, _), disk, _ => Current f disk c

theorem intact_of_measure {disk : Disk} {c : Control} {slot : Fin 2} {image : Image}
    (h : measure (slotImage f disk slot) = .ok image)
    (heq : ¬(image.digest ≠ c.digest slot ∨ image.version ≠ c.version slot)) :
    Intact f disk c slot := by
  obtain ⟨hd, hv⟩ := not_or.mp heq
  unfold measure at h
  split_ifs at h with hmagic
  have himage := (Except.ok.inj h).symm
  rw [himage] at hd hv
  exact ⟨not_not.mp hmagic, not_not.mp hd, not_not.mp hv⟩

/-- A slot other than the good one is not marked `Successful`. -/
theorem Good.eq_of_successful {disk : Disk} {c : Control} {good slot : Fin 2} (h : Good f disk c good)
    (hs : c.state slot = .successful) : good = slot := by
  have honly := h.only
  have hcases : slot = good ∨ slot = 1 - good := by omega
  rcases hcases with rfl | rfl
  · rfl
  · exact absurd hs honly

/-- The measurement of the active slot, and the try that it spends. -/
theorem triple_bootActive {c : Control} :
    Triple capacity (fun disk _ => Home capacity f disk ∧ Current f disk c) (bootActive f c)
      (fun r disk tr => Home capacity f disk ∧ Booted f r disk tr) (Inv capacity f) := by
  have hinv : ∀ disk tr, Home capacity f disk ∧ Current f disk c → Inv capacity f disk tr :=
    fun _ _ h => ⟨h.1, .inr ⟨c, h.2⟩⟩
  unfold bootActive
  refine Triple.bind (triple_load (fun _ _ h => h.1) hinv) fun r => ?_
  cases r with
  | error e => exact Triple.pure fun disk tr h => ⟨h.2.1, h.2.2⟩
  | ok image =>
    dsimp only
    split_ifs with heq hstate
    · exact Triple.pure fun disk tr h => ⟨h.2.1, h.2.2⟩
    · refine Triple.bind (triple_writeControl (fun disk tr h => hinv disk tr h.2)
        (fun _ _ h => h.2.2.safe.congr rfl rfl rfl) ?_) fun r => Triple.pure fun _ _ h => h
      rintro disk tr seq ⟨hm, hhome, hcur⟩
      have hint := intact_of_measure hm.symm heq
      refine ⟨hhome.update le_rfl, Current.written (hcur.safe.congr rfl rfl rfl), hstate, ?_⟩
      obtain ⟨h1, h2, h3⟩ := hint.update (x := f.otaStart.toNat) _ (.inl (lt_slotBase f _))
      exact ⟨h1, h2, h3⟩
    · exact Triple.pure fun disk tr h => ⟨h.2.1, h.2.2⟩

/-- When a slot on probation is out of tries, the other one is restored. -/
theorem Good.rolledBack {disk : Disk} {c : Control} {good : Fin 2} (h : Good f disk c good)
    (hactive : c.state c.active = .unverified) (rollbacks : UInt8) :
    Good f disk { c with
      state := Function.update c.state c.active .failed
      active := c.other
      rollbacks := rollbacks } good := by
  have hne : good ≠ c.active := by
    rintro rfl
    have hs := h.successful
    rw [hactive] at hs
    cases hs
  have hother : 1 - good = c.active := by omega
  obtain ⟨h1, ⟨h2, h3, h4⟩, -⟩ := h
  refine ⟨(Function.update_of_ne hne _ _).trans h1, ⟨h2, h3, h4⟩, ?_⟩
  dsimp only
  rw [hother, Function.update_self]
  decide

/-- A boot decides and records its decision; it keeps what can be booted. -/
theorem triple_boot :
    Triple capacity (Inv capacity f) (boot f)
      (fun r disk tr => Home capacity f disk ∧ Booted f r disk tr) (Inv capacity f) := by
  unfold boot
  refine Triple.bind (Q := fun r disk tr => r = Control.decode (disk f.otaStart.toNat) ∧
    Inv capacity f disk tr) (triple_readControl (fun _ _ h => h.1) fun _ _ h => ⟨rfl, h⟩)
    fun r => ?_
  cases r with
  | none =>
    refine Triple.pure ?_
    rintro disk tr ⟨hd, hhome, hu | ⟨c, hcur⟩⟩
    · exact ⟨hhome, hu⟩
    · exact absurd (hd.trans hcur.decode) (by simp)
  | some c =>
    refine Triple.conseq (P := fun disk _ => Home capacity f disk ∧ Current f disk c) ?_ ?_
    · dsimp only
      split_ifs with hspent hother
      · refine Triple.bind (triple_writeControl (fun _ _ h => ⟨h.1, .inr ⟨c, h.2⟩⟩)
          (fun _ _ h => ?_) (Q := fun r disk _ => Home capacity f disk ∧ Current f disk r.2) ?_)
          fun r => Triple.pure fun _ _ h => h
        · obtain ⟨good, hg⟩ := h.2.safe
          exact ⟨good, hg.rolledBack hspent.1 _⟩
        · rintro disk tr seq ⟨hhome, hcur⟩
          obtain ⟨good, hg⟩ := hcur.safe
          exact ⟨hhome.update le_rfl, Current.written
            (Safe.congr ⟨good, hg.rolledBack hspent.1 (saturatingSucc c.rollbacks)⟩ rfl rfl rfl)⟩
      · -- the good slot is not the active one, so there is one to fall back to
        refine Triple.given (p := False) (fun disk _ h => ?_) False.elim
        obtain ⟨good, hg⟩ := h.2.safe
        have hne : good ≠ c.active := by
          rintro rfl
          have hs := hg.successful
          rw [hspent.1] at hs
          cases hs
        have hgood : good = c.other := by
          unfold Control.other
          omega
        exact hother (hgood ▸ hg.successful)
      · exact triple_bootActive
    · rintro disk tr ⟨hd, hhome, hu | ⟨c', hcur⟩⟩
      · exact absurd (hd.trans hu.decode) (by simp)
      · have hcc : c = c' := Option.some.inj (hd.trans hcur.decode)
        exact ⟨hhome, hcc ▸ hcur⟩

/-- The confirmed slot becomes the good one, and the slot it came from is retired. -/
theorem Intact.confirmed {disk : Disk} {c : Control} (h : Intact f disk c c.active) :
    Good f disk c.confirmed c.active := by
  have hne : c.other ≠ c.active := by
    unfold Control.other
    omega
  obtain ⟨h1, h2, h3⟩ := h
  unfold Control.confirmed
  dsimp only
  split_ifs with ho
  · refine ⟨?_, ⟨h1, h2, h3⟩, ?_⟩
    · dsimp only [Control.other] at hne ⊢
      rw [Function.update_of_ne hne.symm, Function.update_self]
    · dsimp only [Control.other]
      rw [Function.update_self]
      decide
  · refine ⟨Function.update_self _ _ _, ⟨h1, h2, h3⟩, ho⟩

theorem triple_markSuccessful {c : Control} :
    Triple capacity (fun disk _ => Home capacity f disk ∧ Current f disk c ∧
        Intact f disk c c.active) (markSuccessful f c)
      (fun r disk _ => Home capacity f disk ∧ Current f disk r.2) (Inv capacity f) := by
  unfold markSuccessful
  refine triple_writeControl (fun _ _ h => ⟨h.1, .inr ⟨c, h.2.1⟩⟩)
    (fun _ _ h => ⟨c.active, h.2.2.confirmed⟩) fun disk tr seq h => ?_
  exact ⟨h.1.update le_rfl, Current.written
    (Safe.congr ⟨c.active, h.2.2.confirmed⟩ rfl rfl rfl)⟩

/-- What an image that `build_image` made looks like in its slot. -/
theorem intact_of_built {disk : Disk} {c : Control} {slot : Fin 2} {version : UInt64}
    {healthy : Bool} (himage : slotImage f disk slot = buildImage version healthy)
    (hd : c.digest slot = JungeyOs.digest (buildImage version healthy).toList)
    (hv : c.version slot = version) : Intact f disk c slot := by
  refine ⟨?_, ?_, ?_⟩
  · rw [himage, magic_buildImage]
  · rw [himage, hd]
  · rw [himage, hv, imageVersion_buildImage]

theorem triple_initialise :
    Triple capacity (fun disk tr => Home capacity f disk ∧ Uninitialised f disk tr)
      (attempt (initialise f))
      (fun r disk _ => ∃ c, r = .ok c ∧ Home capacity f disk ∧ Current f disk c)
      (Inv capacity f) := by
  have hinv : ∀ disk tr, Home capacity f disk ∧ Uninitialised f disk tr → Inv capacity f disk tr :=
    fun _ _ h => ⟨h.1, .inl h.2⟩
  unfold initialise
  refine Triple.attempt_bind (triple_writeImage hinv fun disk tr x data hx _ h => ?_) fun _ => ?_
  · have hlt := lt_slotBase f 0
    refine ⟨h.1.update (by omega), ?_, fun sector hmem => ?_⟩
    · rw [Function.update_of_ne (by omega)]
      exact h.2.decode
    · rcases List.mem_append.mp hmem with hmem | hmem
      · exact h.2.unwritten sector hmem
      · have hx' := congrArg Prod.fst (List.mem_singleton.mp hmem)
        dsimp only at hx'
        omega
  · have hgood : ∀ disk, slotImage f disk 0 = buildImage 1 true → Safe f disk Control.initial := by
      refine fun disk himage => ⟨0, rfl, intact_of_built himage rfl rfl, ?_⟩
      decide
    refine Triple.attempt_bind (Q := fun r disk _ => r.1 = .ok () ∧ Home capacity f disk ∧
      Current f disk r.2) (triple_writeControl (fun _ _ h => hinv _ _ h.1)
      (fun _ _ h => hgood _ h.2) fun disk tr seq h => ?_) fun r => ?_
    · exact ⟨rfl, h.1.1.update le_rfl, Current.written ((hgood _ h.2).congr rfl rfl rfl)⟩
    · refine Triple.assume fun hr => ?_
      obtain ⟨r, c⟩ := r
      cases hr
      exact Triple.attempt_pure fun _ _ h => ⟨c, rfl, h⟩

/-- A staged slot goes on probation; the running one stays the good one. -/
theorem Good.staged {disk : Disk} {c : Control} (h : Good f disk c c.active) (version : UInt64)
    (healthy : Bool) : Good f disk (c.staged c.other version healthy) c.active := by
  have hne : c.active ≠ c.other := by
    unfold Control.other
    omega
  obtain ⟨h1, ⟨h2, h3, h4⟩, -⟩ := h
  refine ⟨(Function.update_of_ne hne _ _).trans h1, ⟨h2, ?_, ?_⟩, ?_⟩
  · exact h3.trans (Function.update_of_ne hne _ _).symm
  · exact h4.trans (Function.update_of_ne hne _ _).symm
  · have hs : (c.staged c.other version healthy).state (1 - c.active) = .unverified :=
      Function.update_self _ _ _
    rw [hs]
    decide

theorem triple_stage {c : Control} {version : UInt64} {healthy : Bool}
    (hactive : c.state c.active = .successful) :
    Triple capacity (fun disk _ => Home capacity f disk ∧ Current f disk c)
      (stage f c c.other version healthy) (fun _ => Inv capacity f) (Inv capacity f) := by
  have hinv : ∀ disk tr, Home capacity f disk ∧ Current f disk c → Inv capacity f disk tr :=
    fun _ _ h => ⟨h.1, .inr ⟨c, h.2⟩⟩
  have hgood : ∀ disk, Current f disk c → Good f disk c c.active := by
    intro disk h
    obtain ⟨good, hg⟩ := h.safe
    exact hg.eq_of_successful hactive ▸ hg
  unfold stage
  refine Triple.bind (Triple.attempt (R := fun r disk tr => r = .ok () ∧ Home capacity f disk ∧
    Current f disk c) (triple_writeImage hinv fun disk tr x data hlo hhi h => ?_)
    fun _ _ _ h => ⟨rfl, h.1⟩) fun r => ?_
  · -- the other slot is not the good one
    have hlt := lt_slotBase f c.other
    refine ⟨h.1.update (by omega), ?_, c.active, (hgood _ h.2).update ?_⟩
    · rw [Function.update_of_ne (by omega)]
      exact h.2.decode
    · unfold slotBase Control.other at *
      omega
  · cases r with
    | error e => exact Triple.given (p := False) (fun _ _ h => by cases h.1) False.elim
    | ok u =>
      refine triple_writeControl (fun _ _ h => hinv _ _ h.2)
        (fun _ _ h => ⟨c.active, (hgood _ h.2.2).staged version healthy⟩) fun disk tr seq h => ?_
      exact ⟨h.2.1.update le_rfl, .inr ⟨_, Current.written
        (Safe.congr ⟨c.active, (hgood _ h.2.2).staged version healthy⟩ rfl rfl rfl)⟩⟩

theorem triple_offer {c : Control} {update : Option (UInt64 × Bool)} :
    Triple capacity (fun disk _ => Home capacity f disk ∧ Current f disk c) (offer f c update)
      (fun _ => Inv capacity f) (Inv capacity f) := by
  have hinv : ∀ disk tr, Home capacity f disk ∧ Current f disk c → Inv capacity f disk tr :=
    fun _ _ h => ⟨h.1, .inr ⟨c, h.2⟩⟩
  unfold offer
  cases update with
  | none => exact Triple.pure hinv
  | some u =>
    dsimp only
    split_ifs with hactive
    · exact Triple.bind (triple_stage hactive) fun _ => Triple.pure fun _ _ h => h
    · exact Triple.pure hinv

/-- A boot keeps `Inv`, wherever the power goes. -/
theorem stage7c_keeps (confirm : Bool) (update : Option (UInt64 × Bool)) :
    Triple capacity (Inv capacity f) (stage7c confirm update) (fun _ => Inv capacity f)
      (Inv capacity f) := by
  unfold stage7c
  refine Triple.bind (Q := fun r disk tr => r = .ok f ∧ Inv capacity f disk tr)
    (triple_mount (fun _ _ h => h.1) fun _ _ h => ⟨rfl, h⟩) fun r => Triple.assume fun hr => ?_
  subst hr
  refine Triple.bind triple_boot fun r => ?_
  obtain ⟨c, outcome⟩ := r
  cases outcome with
  | fresh =>
    refine Triple.bind triple_initialise fun r => ?_
    cases r with
    | error e => exact Triple.given (p := False) (fun _ _ ⟨_, h, _⟩ => by cases h) False.elim
    | ok c =>
      refine triple_offer.conseq ?_
      rintro disk tr ⟨c', hc, h⟩
      cases hc
      exact h
  | trying slot version triesLeft healthy =>
    dsimp only
    split_ifs
    · refine Triple.bind (triple_markSuccessful.conseq fun _ _ h => ⟨h.1, h.2.1, h.2.2.2⟩)
        fun r => triple_offer
    · exact triple_offer.conseq fun _ _ h => ⟨h.1, h.2.1⟩
  | rolledBack source target version => exact triple_offer
  | running slot version => exact triple_offer
  | corrupt slot => exact triple_offer

end Boot

/-! ## Runs -/

/-- One boot: what the system decides, and what its sector writes meet. -/
structure Cycle where
  confirm : Bool
  update : Option (UInt64 × Bool)
  writes : List WriteFate

/-- The disk between two boots, and every sector that landed since `format`. -/
structure World where
  capacity : ℕ
  disk : Disk
  trace : List (ℕ × Sector) := []

/-- The device as a boot finds it. -/
def World.device (w : World) (writes : List WriteFate) : Device where
  capacity := w.capacity
  disk := w.disk
  writes := writes
  trace := w.trace

/-- A sector write lands whole, or the power goes before or after it. -/
def Cycle.Cuts (b : Cycle) : Prop :=
  ∀ fate ∈ b.writes, fate = .ok ∨ fate = .cutBefore ∨ fate = .cutAfter

instance (b : Cycle) : Decidable b.Cuts := by unfold Cycle.Cuts; infer_instance

/-- A boot runs `stage7c` until it is done or the power goes. -/
def World.step (w : World) (b : Cycle) : Option World :=
  if b.Cuts then
    let d := (stage7c b.confirm b.update (w.device b.writes)).2
    some { w with disk := d.disk, trace := d.trace }
  else none

/-- A disk that `format` laid out over its whole capacity. -/
def World.Fresh (w : World) : Prop :=
  ∃ total d d', format total d = (.ok (), d') ∧ w.capacity = d'.capacity ∧
    total.toNat = d'.capacity ∧ w.disk = d'.disk ∧ w.trace = []

/-- `mount` finds what `format` laid out over the whole disk; the audit log and the
boot control block start out blank. -/
theorem home_of_format {total : UInt64} {d d' : Device} {u : Unit}
    (h : format total d = (.ok u, d')) (htotal : total.toNat = d'.capacity) :
    ∃ spill audit ota, Geometry total spill audit ota ∧ Home d'.capacity
      ⟨Checkpoint.new, spill, SPILL_SECTORS, audit, AUDIT_SECTORS, ota, OTA_SECTORS, 0, total⟩
      d'.disk ∧ d'.disk audit.toNat = blankSector ∧ d'.disk ota.toNat = blankSector := by
  obtain ⟨len, spill, audit, ota, hgeo, -, -, -, hdisk⟩ := format_disk h
  obtain ⟨h1, h2, h3, h4⟩ := id hgeo
  have e3 : OTA_SECTORS.toNat = 129 := rfl
  have e4 : LOG_START.toNat = 8 := rfl
  have hslot : (1 : Fin 2) - 0 = 1 := rfl
  have hlow : ∀ x < 8, d'.disk x = Function.update (Function.update
      (Function.update d.disk SB_SECTOR (superblock total len spill audit ota)) 2 blankSector)
      1 Checkpoint.new.encode x := by
    intro x hx
    rw [hdisk, laidOut, Function.update_of_ne (by omega), Function.update_of_ne (by omega)]
  have hsb : d'.disk SB_SECTOR = superblock total len spill audit ota := by
    rw [hlow _ (by decide), Function.update_of_ne (by decide), Function.update_of_ne (by decide),
      Function.update_self]
  have hA : d'.disk (CP_SECTORS 0) = Checkpoint.new.encode := by
    rw [hlow _ (by decide)]
    exact Function.update_self _ _ _
  have hB : d'.disk (CP_SECTORS 1) = blankSector := by
    rw [hlow _ (by decide), Function.update_of_ne (by decide)]
    exact Function.update_self _ _ _
  refine ⟨spill, audit, ota, hgeo, ⟨?_, ⟨?_, fun c hc => ?_⟩, ?_, by dsimp only; omega,
    by dsimp only; omega⟩, ?_, ?_⟩
  · rw [hsb]
    exact superblockOk _ _ _ _ _
  · rw [hA]
    exact Checkpoint.decode_encode Checkpoint.wf_new
  · rw [hslot, hB, decode_blank] at hc
    cases hc
  · rw [hsb, adopt_superblock]
  · rw [hdisk, laidOut, Function.update_of_ne (by omega), Function.update_self]
  · rw [hdisk, laidOut, Function.update_self]

theorem uninitialised_fresh {w : World} (h : w.Fresh) :
    ∃ f, Home w.capacity f w.disk ∧ Uninitialised f w.disk w.trace := by
  obtain ⟨total, d, d', hfmt, hcap, htotal, hdisk, htrace⟩ := h
  obtain ⟨spill, audit, ota, -, hhome, -, hblank⟩ := home_of_format hfmt htotal
  rw [hcap, hdisk, htrace]
  refine ⟨_, hhome, ?_, fun sector => List.not_mem_nil⟩
  dsimp only
  rw [hblank, Control.decode_blankSector]

theorem inv_fresh {w : World} (h : w.Fresh) : ∃ f, Inv w.capacity f w.disk w.trace := by
  obtain ⟨f, hhome, hu⟩ := uninitialised_fresh h
  exact ⟨f, hhome, .inl hu⟩

theorem inv_step {w w' : World} {b : Cycle} {f : Fs} (h : Inv w.capacity f w.disk w.trace)
    (hs : w.step b = some w') : Inv w'.capacity f w'.disk w'.trace := by
  unfold World.step at hs
  split_ifs at hs with hcuts
  cases hs
  have hpost := stage7c_keeps b.confirm b.update (w.device b.writes) ⟨rfl, rfl, hcuts⟩ h
  revert hpost
  dsimp only
  match stage7c b.confirm b.update (w.device b.writes) with
  | (.ok _, d) => exact fun h => h.2
  | (.err _, d) => exact False.elim
  | (.halted _, d) => exact fun h => h.2

theorem inv_reachable {w : World} (h : Run.Reachable World.step Run.always World.Fresh w) :
    ∃ f, Inv w.capacity f w.disk w.trace :=
  Run.Reachable.invariant (fun w => ∃ f, Inv w.capacity f w.disk w.trace) (fun _ => inv_fresh)
    (fun _ _ _ ⟨f, h⟩ _ hs => ⟨f, inv_step h hs⟩) h

/-- From a freshly laid out disk, over any number of boots with the power cut at
any sector write: `mount` succeeds, and once the control block of `initialise`
landed, the control block on the disk decodes and a slot that it marks `Successful`
holds an image with the digest and the version recorded for that slot. -/
theorem always_bootable {w : World} (h : Run.Reachable World.step Run.always World.Fresh w) :
    ∃ f d, mount (w.device []) = (.ok f, d) ∧
      ∀ sector, (f.otaStart.toNat, sector) ∈ w.trace →
        ∃ c slot, Control.decode (w.disk f.otaStart.toNat) = some c ∧
          c.state slot = .successful ∧ Intact f w.disk c slot := by
  obtain ⟨f, hhome, hu⟩ := inv_reachable h
  refine ⟨f, w.device [], Home.mount (d := w.device []) hhome rfl, fun sector hsector => ?_⟩
  rcases hu with hu | ⟨c, hcur⟩
  · exact absurd hsector (hu.unwritten sector)
  · obtain ⟨good, hg⟩ := hcur.safe
    exact ⟨c, good, hcur.decode, hg.successful, hg.intact⟩

/-! ## A first boot -/

section FirstBoot

variable {f : Fs} {d : Device}

/-- Without a cut, an image is written to its end. -/
theorem writeImage_healthy (slot : Fin 2) (img : ImageBytes) (hw : d.writes = [])
    (hfit : f.otaStart.toNat + 129 ≤ d.capacity) (hcap : d.capacity < 2 ^ 64) :
    ∃ d', writeImage f slot img d = (.ok (), d') ∧ d'.writes = [] ∧ d'.capacity = d.capacity := by
  have hle := slotBase_le f slot
  obtain ⟨base, hbase, heq⟩ := slotSector_healthy (f := f) slot (by omega) d
  unfold writeImage
  rw [bind_of_ok hbase]
  refine forRange_progress (P := fun _ e => e.writes = [] ∧ e.capacity = d.capacity) ⟨hw, rfl⟩
    fun k e hk he => ?_
  have h8 : IMAGE_BYTES / SECTOR_SIZE = 8 := rfl
  have hofNat : (UInt64.ofNat k).toNat = k := by
    rw [UInt64.toNat_ofNat']
    omega
  obtain ⟨pos, hpos, hsum⟩ := addU64_of_lt (a := base) (b := UInt64.ofNat k) (by omega) e
  refine ⟨_, (bind_of_ok hpos).trans (writeSector_of_healthy _ he.1 ?_), he⟩
  rw [he.2]
  omega

/-- Without a cut, `initialise` commits. -/
theorem initialise_healthy (hw : d.writes = []) (hfit : f.otaStart.toNat + 129 ≤ d.capacity)
    (hcap : d.capacity < 2 ^ 64) :
    ∃ c d', initialise f d = (.ok c, d') ∧ c.seq.toNat = 1 ∧ d'.disk f.otaStart.toNat = c.encode ∧
      (f.otaStart.toNat, c.encode) ∈ d'.trace := by
  obtain ⟨d1, h1, hw1, hc1⟩ := writeImage_healthy 0 (buildImage 1 true) hw hfit hcap
  obtain ⟨seq, h2, hseq⟩ := addU64_of_lt (a := Control.initial.seq) (b := 1) (by decide) d1
  have h3 := @writeSector_of_healthy f.otaStart.toNat d1
    (Control.encode { Control.initial with seq := seq }) hw1 (by omega)
  have h4 : writeControl f Control.initial d1 = (.ok (.ok (), { Control.initial with seq := seq }),
      d1.store f.otaStart.toNat (Control.encode { Control.initial with seq := seq })) := by
    unfold writeControl
    rw [bind_of_ok h2, bind_of_ok (attempt_of_ok h3)]
    rfl
  refine ⟨{ Control.initial with seq := seq },
    d1.store f.otaStart.toNat (Control.encode { Control.initial with seq := seq }), ?_, hseq,
    Function.update_self _ _ _, List.mem_append_right d1.trace (List.mem_singleton_self _)⟩
  unfold initialise
  rw [bind_of_ok h1, bind_of_ok h4]
  rfl

/-- The first boot of a fresh disk ends with a control block on it. -/
theorem stage7c_first (hhome : Home d.capacity f d.disk)
    (hu : Control.decode (d.disk f.otaStart.toNat) = none) (hw : d.writes = []) (hr : d.reads = [])
    (hlt : d.capacity < 2 ^ 64) (confirm : Bool) :
    ∃ d' sector, stage7c confirm none d = (.ok (), d') ∧ (f.otaStart.toNat, sector) ∈ d'.trace := by
  have hfits := hhome.fits
  have hread := @readSector_of_healthy f.otaStart.toNat d hr (by omega)
  have hcontrol : readControl f d = (.ok none, d) := by
    unfold readControl
    rw [bind_of_ok (attempt_of_ok hread), ← hu]
    rfl
  have hboot : boot f d = (.ok (Control.blank, .fresh), d) := by
    unfold boot
    rw [bind_of_ok hcontrol]
    rfl
  obtain ⟨c, d', hinit, -, -, hmem⟩ := initialise_healthy (f := f) hw (by omega) (by omega)
  refine ⟨d', c.encode, ?_, hmem⟩
  unfold stage7c
  exact (bind_of_ok (attempt_of_ok (hhome.mount hr))).trans
    ((bind_of_ok hboot).trans (bind_of_ok (attempt_of_ok hinit)))

end FirstBoot

/-- A machine with a disk of 20000 sectors that `format` just laid out. -/
def newMachine : World where
  capacity := 20000
  disk := (format 20000 { capacity := 20000, disk := fun _ => blankSector }).2.disk

theorem fresh_newMachine : newMachine.Fresh := by
  obtain ⟨d', hfmt, hcap⟩ := @format_healthy 20000
    { capacity := 20000, disk := fun _ => blankSector } rfl (by decide) (by decide)
  exact ⟨20000, _, d', hfmt, hcap.symm, hcap.symm, by rw [newMachine, hfmt], rfl⟩

theorem capacity_newMachine : newMachine.capacity = 20000 := rfl

attribute [irreducible] newMachine

/-- The new machine is booted once. -/
theorem always_bootable_newMachine :
    ∃ w f d sector, newMachine.step ⟨true, none, []⟩ = some w ∧ mount (w.device []) = (.ok f, d) ∧
      (f.otaStart.toNat, sector) ∈ w.trace ∧
      ∃ c slot, Control.decode (w.disk f.otaStart.toNat) = some c ∧
        c.state slot = .successful ∧ Intact f w.disk c slot := by
  have hcuts : (Cycle.mk true none []).Cuts := by simp [Cycle.Cuts]
  obtain ⟨f, hhome, hu⟩ := uninitialised_fresh fresh_newMachine
  obtain ⟨w, sector, hstep, hmem⟩ : ∃ w sector, newMachine.step ⟨true, none, []⟩ = some w ∧
      (f.otaStart.toNat, sector) ∈ w.trace := by
    obtain ⟨d', sector, hrun, hmem⟩ := stage7c_first (d := newMachine.device []) hhome hu.decode rfl
      rfl (by change newMachine.capacity < _; rw [capacity_newMachine]; decide) true
    refine ⟨{ newMachine with disk := d'.disk, trace := d'.trace }, sector, ?_, hmem⟩
    unfold World.step
    rw [if_pos hcuts, hrun]
  have hreach : Run.Reachable World.step Run.always World.Fresh w :=
    .next (.start fresh_newMachine) trivial hstep
  obtain ⟨f', d, hm, hall⟩ := always_bootable hreach
  -- `mount` finds the filesystem that the boot found
  have hff : f' = f := by
    have hhome' : Home w.capacity f w.disk := (inv_step ⟨hhome, .inl hu⟩ hstep).1
    exact Exit.ok.inj (congrArg Prod.fst (hm.symm.trans (hhome'.mount (d := w.device []) rfl)))
  exact ⟨w, f', d, sector, hstep, hm, hff ▸ hmem, hall sector (hff ▸ hmem)⟩

end JungeyOs.Ota
