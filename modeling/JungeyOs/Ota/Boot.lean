import JungeyOs.Ota.PowerCuts

/-!
# Booting again and again

What `ota::boot` (`kernel/src/ota.rs`, lines 262–312) does on a device that answers
every call, and what repeated calls leave on the disk when nobody confirms the slot
on probation.

Results:
* `OnProbation.boot`: the three things a boot of a slot on probation can leave
  behind.
* `rolls_back_within`: `MAX_TRIES + 1` boots abandon the slot exactly when it is out
  of tries or holds the image recorded for it.
* `names_measured_slot`: a slot that `boot` names was measured in that call, unless
  the call rolled back.
-/

namespace JungeyOs.Ota

open JungeyOs.Bytes JungeyOs.Jlfs Blk

/-! ## A device that answers -/

/-- No call on the device fails, and it has the whole update region. -/
structure Working (f : Fs) (d : Device) : Prop where
  writes : d.writes = []
  reads : d.reads = []
  fits : f.otaStart.toNat + 129 ≤ d.capacity
  capacity : d.capacity < 2 ^ 64

section Working

variable {f : Fs} {d : Device} {c : Control} {slot : Fin 2}

theorem Working.store (h : Working f d) (sector : ℕ) (data : Sector) :
    Working f (d.store sector data) :=
  ⟨h.writes, h.reads, h.fits, h.capacity⟩

theorem Working.readControl (h : Working f d) :
    readControl f d = (.ok (Control.decode (d.disk f.otaStart.toNat)), d) := by
  have hfits := h.fits
  have hread := @readSector_of_healthy f.otaStart.toNat d h.reads (by omega)
  unfold Ota.readControl
  rw [bind_of_ok (attempt_of_ok hread)]
  rfl

/-- A control block is written, unless its sequence number is exhausted. -/
theorem Working.writeControl (h : Working f d) (c : Control) :
    (c.seq.toNat + 1 < 2 ^ 64 ∧ ∃ seq : UInt64, seq.toNat = c.seq.toNat + 1 ∧
        writeControl f c d = (.ok (.ok (), { c with seq := seq }),
          d.store f.otaStart.toNat (Control.encode { c with seq := seq }))) ∨
      (2 ^ 64 ≤ c.seq.toNat + 1 ∧ writeControl f c d = (.halted .panic, d)) := by
  have hfits := h.fits
  have hone : (1 : UInt64).toNat = 1 := rfl
  unfold Ota.writeControl
  rcases addU64_cases c.seq 1 d with ⟨seq, hseq, hsum⟩ | ⟨hpanic, hge⟩
  · have hlt := seq.toNat_lt
    have hwrite := @writeSector_of_healthy f.otaStart.toNat d
      (Control.encode { c with seq := seq }) h.writes (by omega)
    refine .inl ⟨by omega, seq, by omega, ?_⟩
    rw [bind_of_ok hseq, bind_of_ok (attempt_of_ok hwrite)]
    rfl
  · exact .inr ⟨by omega, bind_of_halted hpanic⟩

theorem Working.readImage (h : Working f d) {base : UInt64} (hbase : base.toNat = slotBase f slot)
    {k : ℕ} (hk : k ≤ 8) : readImage base k d = (.ok (imageAt d.disk (slotBase f slot) k), d) := by
  have hfits := h.fits
  have hcap := h.capacity
  have hle := slotBase_le f slot
  induction k with
  | zero => rfl
  | succ k ih =>
    have hofNat : (UInt64.ofNat k).toNat = k := by
      rw [UInt64.toNat_ofNat']
      omega
    obtain ⟨pos, hpos, hsum⟩ := addU64_of_lt (a := base) (b := UInt64.ofNat k) (by omega) d
    have hread := @readSector_of_healthy pos.toNat d h.reads (by omega)
    have heq : pos.toNat = slotBase f slot + k := by omega
    unfold Ota.readImage
    rw [bind_of_ok (ih (by omega)), bind_of_ok hpos, bind_of_ok hread, heq]
    rfl

/-- The control block that was stored is read back. -/
theorem decode_store (f : Fs) (d : Device) (c : Control) :
    Control.decode ((d.store f.otaStart.toNat c.encode).disk f.otaStart.toNat) = some c := by
  have hread : (d.store f.otaStart.toNat c.encode).disk f.otaStart.toNat = c.encode :=
    Function.update_self _ _ _
  rw [hread, Control.decode_encode]

/-- A slot is measured as it lies on the disk. -/
theorem Working.load (h : Working f d) (slot : Fin 2) :
    attempt (Ota.load f slot) d = (.ok (measure (slotImage f d.disk slot)), d) := by
  have hfits := h.fits
  have hcap := h.capacity
  have hle := slotBase_le f slot
  obtain ⟨base, hbase, heq⟩ := slotSector_healthy (f := f) slot (by omega) d
  have h8 : IMAGE_BYTES / SECTOR_SIZE = 8 := rfl
  unfold attempt Ota.load slotImage
  rw [bind_of_ok hbase, h8, bind_of_ok (h.readImage heq le_rfl)]
  cases measure (imageAt d.disk (slotBase f slot) 8) <;> rfl

end Working

/-- An intact slot measures as its control block says. -/
theorem Intact.measure {f : Fs} {disk : Disk} {c : Control} {slot : Fin 2}
    (h : Intact f disk c slot) :
    ∃ image, measure (slotImage f disk slot) = .ok image ∧ image.digest = c.digest slot ∧
      image.version = c.version slot := by
  unfold Ota.measure
  rw [if_neg (not_not.mpr h.magic)]
  exact ⟨_, rfl, h.digest, h.version⟩

/-! ## A slot on probation -/

/-- The control block on the disk has a slot on probation and one to fall back to. -/
structure OnProbation (f : Fs) (disk : Disk) (c : Control) : Prop where
  decode : Control.decode (disk f.otaStart.toNat) = some c
  active : c.state c.active = .unverified
  other : c.state c.other = .successful

/-- The control block on the disk has gone back from the active slot of `c` to the
other one. -/
def WentBack (f : Fs) (c : Control) (disk : Disk) : Prop :=
  ∃ c', Control.decode (disk f.otaStart.toNat) = some c' ∧ c'.active = c.other ∧
    c'.state c.active = .failed

/-- The slot is out of tries or holds the image recorded for it, and the sequence
number has room for every boot until the rollback. -/
def WillGoBack (f : Fs) (c : Control) (disk : Disk) : Prop :=
  (c.tries = 0 ∨ Intact f disk c c.active) ∧ c.seq.toNat + c.tries.toNat + 1 < 2 ^ 64

/-- The device after `n` calls of `boot`. -/
def boots (f : Fs) (n : ℕ) : Device → Device := (fun d => (boot f d).2)^[n]

section Probation

variable {f : Fs} {d : Device} {c : Control}

theorem OnProbation.not_wentBack (h : OnProbation f d.disk c) : ¬WentBack f c d.disk := by
  rintro ⟨c', hc', -, hstate⟩
  have hcc : c = c' := Option.some.inj (h.decode.symm.trans hc')
  rw [← hcc, h.active] at hstate
  cases hstate

theorem saturatingPred_toNat (v : UInt8) : (saturatingPred v).toNat = v.toNat - 1 := by
  unfold saturatingPred
  split_ifs with h
  · rw [h]
    rfl
  · have hne : v.toNat ≠ 0 := fun h0 => h (UInt8.toNat_inj.mp h0)
    have hone : (1 : UInt8).toNat = 1 := rfl
    rw [UInt8.toNat_sub_of_le _ _ (UInt8.le_iff_toNat_le.mpr (by omega)), hone]

/-- The active slot is not what the control block says: nothing is written. -/
theorem bootActive_refused (hw : Working f d) (h : ¬Intact f d.disk c c.active) :
    bootActive f c d = (.ok (c, .corrupt c.active), d) := by
  unfold bootActive
  rw [bind_of_ok (hw.load c.active)]
  cases hm : measure (slotImage f d.disk c.active) with
  | error e => rfl
  | ok image =>
    dsimp only
    rw [if_pos (by_contra fun hne => h (intact_of_measure hm hne))]
    rfl

/-- The active slot is what the control block says: one try is spent. -/
theorem bootActive_trying (hw : Working f d) (h : Intact f d.disk c c.active)
    (hactive : c.state c.active = .unverified) :
    (∃ seq : UInt64, seq.toNat = c.seq.toNat + 1 ∧
        (bootActive f c d).2 = d.store f.otaStart.toNat
          (Control.encode { c with tries := saturatingPred c.tries, seq := seq })) ∨
      (2 ^ 64 ≤ c.seq.toNat + 1 ∧ (bootActive f c d).2 = d) := by
  obtain ⟨image, hm, hd, hv⟩ := h.measure
  unfold bootActive
  rw [bind_of_ok (hw.load c.active), hm]
  dsimp only
  rw [if_neg (by simp [hd, hv]), if_pos hactive]
  rcases hw.writeControl { c with tries := saturatingPred c.tries } with
    ⟨-, seq, hseq, hwrite⟩ | ⟨hge, hpanic⟩
  · refine .inl ⟨seq, hseq, ?_⟩
    rw [bind_of_ok hwrite]
    rfl
  · refine .inr ⟨hge, ?_⟩
    rw [bind_of_halted hpanic]

/-- A slot out of tries is given up for the other one. -/
theorem OnProbation.boot_spent (h : OnProbation f d.disk c) (hw : Working f d) (ht : c.tries = 0) :
    (c.seq.toNat + 1 < 2 ^ 64 ∧ ∃ c' : Control, c'.active = c.other ∧
        c'.state c.active = .failed ∧ (boot f d).2 = d.store f.otaStart.toNat c'.encode) ∨
      (2 ^ 64 ≤ c.seq.toNat + 1 ∧ (boot f d).2 = d) := by
  unfold Ota.boot
  rw [bind_of_ok hw.readControl, h.decode]
  dsimp only
  rw [if_pos ⟨h.active, ht⟩, if_pos h.other]
  rcases hw.writeControl { c with
      state := Function.update c.state c.active .failed
      active := c.other
      rollbacks := saturatingSucc c.rollbacks } with ⟨hlt, seq, -, hwrite⟩ | ⟨hge, hpanic⟩
  · refine .inl ⟨hlt, { c with
      seq := seq
      state := Function.update c.state c.active .failed
      active := c.other
      rollbacks := saturatingSucc c.rollbacks }, rfl, Function.update_self _ _ _, ?_⟩
    rw [bind_of_ok hwrite]
    rfl
  · refine .inr ⟨hge, ?_⟩
    rw [bind_of_halted hpanic]

/-- A slot with tries left is measured. -/
theorem OnProbation.boot_eq (h : OnProbation f d.disk c) (hw : Working f d) (ht : c.tries ≠ 0) :
    boot f d = bootActive f c d := by
  unfold Ota.boot
  rw [bind_of_ok hw.readControl, h.decode]
  dsimp only
  rw [if_neg fun hspent => ht hspent.2]

/-- After a try was spent the slot is still on probation. -/
theorem OnProbation.spend (h : OnProbation f d.disk c) (seq : UInt64) :
    let c' : Control := { c with tries := saturatingPred c.tries, seq := seq }
    OnProbation f (d.store f.otaStart.toNat c'.encode).disk c' :=
  ⟨decode_store f d _, h.active, h.other⟩

/-- A boot of a slot that will go back goes back, or spends a try. -/
theorem OnProbation.boot_progress (h : OnProbation f d.disk c) (hw : Working f d)
    (hb : WillGoBack f c d.disk) :
    Working f (boot f d).2 ∧ (WentBack f c (boot f d).2.disk ∨
      ∃ c' : Control, OnProbation f (boot f d).2.disk c' ∧ c'.active = c.active ∧
        c'.tries.toNat + 1 = c.tries.toNat ∧ WillGoBack f c' (boot f d).2.disk) := by
  obtain ⟨hor, hseq⟩ := hb
  by_cases ht : c.tries = 0
  · rcases h.boot_spent hw ht with ⟨-, c', hc', hs', hd'⟩ | ⟨hge, -⟩
    · rw [hd']
      exact ⟨hw.store _ _, .inl ⟨c', decode_store f d c', hc', hs'⟩⟩
    · omega
  · have hpos : c.tries.toNat ≠ 0 := fun h0 => ht (UInt8.toNat_inj.mp h0)
    have hint := hor.resolve_left ht
    rw [h.boot_eq hw ht]
    rcases bootActive_trying hw hint h.active with ⟨seq, hs, hd'⟩ | ⟨hge, -⟩
    · rw [hd']
      have hpred := saturatingPred_toNat c.tries
      refine ⟨hw.store _ _, .inr ⟨_, h.spend seq, rfl, ?_, .inr ?_, ?_⟩⟩
      · dsimp only
        omega
      · obtain ⟨h1, h2, h3⟩ := hint.update
          (Control.encode { c with tries := saturatingPred c.tries, seq := seq })
          (.inl (lt_slotBase f c.active))
        exact ⟨h1, h2, h3⟩
      · dsimp only
        omega
    · omega

/-- A boot of a slot that will not go back leaves one that will not. -/
theorem OnProbation.boot_stuck (h : OnProbation f d.disk c) (hw : Working f d)
    (hb : ¬WillGoBack f c d.disk) :
    Working f (boot f d).2 ∧ ∃ c' : Control, OnProbation f (boot f d).2.disk c' ∧
      c'.active = c.active ∧ ¬WillGoBack f c' (boot f d).2.disk := by
  have hsame : (boot f d).2 = d → Working f (boot f d).2 ∧ ∃ c' : Control,
      OnProbation f (boot f d).2.disk c' ∧ c'.active = c.active ∧
        ¬WillGoBack f c' (boot f d).2.disk := fun heq => by
    rw [heq]
    exact ⟨hw, c, h, rfl, hb⟩
  by_cases ht : c.tries = 0
  · rcases h.boot_spent hw ht with ⟨hlt, -⟩ | ⟨-, hd'⟩
    · have hzero : c.tries.toNat = 0 := congrArg UInt8.toNat ht
      exact absurd ⟨.inl ht, by omega⟩ hb
    · exact hsame hd'
  · rw [h.boot_eq hw ht] at hsame ⊢
    by_cases hint : Intact f d.disk c c.active
    · rcases bootActive_trying hw hint h.active with ⟨seq, hs, hd'⟩ | ⟨-, hd'⟩
      · have hpos : c.tries.toNat ≠ 0 := fun h0 => ht (UInt8.toNat_inj.mp h0)
        have hpred := saturatingPred_toNat c.tries
        rw [hd']
        refine ⟨hw.store _ _, _, h.spend seq, rfl, fun hb' => hb ⟨.inr hint, ?_⟩⟩
        have hroom := hb'.2
        dsimp only at hroom
        omega
      · exact hsame hd'
    · exact hsame (by rw [bootActive_refused hw hint])

/-- The rollback is the same for a control block with the same slot active. -/
theorem WentBack.congr {c' : Control} {disk : Disk} (hc : c'.active = c.active)
    (h : WentBack f c' disk) : WentBack f c disk := by
  obtain ⟨c₁, h1, h2, h3⟩ := h
  unfold Control.other at h2
  rw [hc] at h2 h3
  exact ⟨c₁, h1, h2, h3⟩

/-- A slot that will go back has gone back once its tries are spent. -/
theorem OnProbation.goes_back {n : ℕ} (h : OnProbation f d.disk c) (hw : Working f d)
    (hb : WillGoBack f c d.disk) (hn : c.tries.toNat ≤ n) :
    ∃ k ≤ n + 1, WentBack f c (boots f k d).disk := by
  induction n generalizing d c with
  | zero =>
    obtain ⟨-, hback | ⟨c', -, -, ht, -⟩⟩ := h.boot_progress hw hb
    · exact ⟨1, le_rfl, hback⟩
    · omega
  | succ n ih =>
    obtain ⟨hw', hback | ⟨c', h', hc', ht, hb'⟩⟩ := h.boot_progress hw hb
    · exact ⟨1, by omega, hback⟩
    · obtain ⟨k, hk, hback⟩ := ih h' hw' hb' (by omega)
      exact ⟨k + 1, by omega, hback.congr hc'⟩

/-- A slot that will not go back never does. -/
theorem OnProbation.never_goes_back {k : ℕ} (h : OnProbation f d.disk c) (hw : Working f d)
    (hb : ¬WillGoBack f c d.disk) : ¬WentBack f c (boots f k d).disk := by
  induction k generalizing d c with
  | zero => exact h.not_wentBack
  | succ k ih =>
    obtain ⟨hw', c', h', hc', hb'⟩ := h.boot_stuck hw hb
    exact fun hback => ih h' hw' hb' (WentBack.congr hc'.symm hback)

end Probation

/-- A slot on probation with at most `MAX_TRIES` tries is given up for the other
one within `MAX_TRIES + 1` boots of a working device if and only if it is out of
tries or holds the image that the control block records for it (and the sequence
number does not run out). Whatever else it holds, `boot` refuses it before a try is
spent, every time. -/
theorem rolls_back_within {f : Fs} {d : Device} {c : Control} (hw : Working f d)
    (h : OnProbation f d.disk c) (ht : c.tries ≤ MAX_TRIES) :
    (∃ k ≤ MAX_TRIES.toNat + 1, WentBack f c (boots f k d).disk) ↔
      (c.tries = 0 ∨ Intact f d.disk c c.active) ∧ c.seq.toNat + c.tries.toNat + 1 < 2 ^ 64 := by
  constructor
  · rintro ⟨k, -, hback⟩
    by_contra hb
    exact h.never_goes_back hw hb hback
  · exact fun hb => h.goes_back hw hb (UInt8.le_iff_toNat_le.mp ht)

/-! ### Two slots -/

/-- A filesystem whose update region starts at sector 8. -/
def smallFs : Fs := ⟨Checkpoint.new, 0, 0, 0, 0, 8, OTA_SECTORS, 0, 200⟩

/-- Slot 1 is on probation; version 1 is recorded for both slots. -/
def probation (tries : UInt8) : Control where
  seq := 0
  active := 1
  tries := tries
  rollbacks := 0
  state := fun slot => if slot = 0 then .successful else .unverified
  version := fun _ => 1
  digest := fun _ => JungeyOs.digest (buildImage 1 true).toList

/-- An image of zeros. -/
def blankImage : ImageBytes := Vector.replicate IMAGE_BYTES 0

/-- A disk with this control block and these images in its slots. -/
def twoSlots (tries : UInt8) (img0 img1 : ImageBytes) : Device where
  capacity := 200
  disk := fun x =>
    if x = 8 then (probation tries).encode
    else if x < 73 then slice img0 ((x - 9) * SECTOR_SIZE) SECTOR_SIZE
    else slice img1 ((x - 73) * SECTOR_SIZE) SECTOR_SIZE

section TwoSlots

variable {tries : UInt8} {img0 img1 : ImageBytes}

theorem working_twoSlots : Working smallFs (twoSlots tries img0 img1) :=
  ⟨rfl, rfl, (by decide : 8 + 129 ≤ 200), (by decide : 200 < 2 ^ 64)⟩

theorem onProbation_twoSlots :
    OnProbation smallFs (twoSlots tries img0 img1).disk (probation tries) :=
  ⟨Control.decode_encode _, rfl, rfl⟩

theorem slotImage_twoSlots_zero : slotImage smallFs (twoSlots tries img0 img1).disk 0 = img0 := by
  have hbase : slotBase smallFs 0 = 9 := rfl
  refine imageAt_of_slices fun s hs => ?_
  rw [hbase]
  unfold twoSlots
  dsimp only
  rw [if_neg (by omega), if_pos (by omega), Nat.add_sub_cancel_left]

theorem slotImage_twoSlots_one : slotImage smallFs (twoSlots tries img0 img1).disk 1 = img1 := by
  have hbase : slotBase smallFs 1 = 73 := rfl
  refine imageAt_of_slices fun s hs => ?_
  rw [hbase]
  unfold twoSlots
  dsimp only
  rw [if_neg (by omega), if_neg (by omega), Nat.add_sub_cancel_left]

theorem not_intact_blankImage {f : Fs} {disk : Disk} {c : Control} {slot : Fin 2}
    (h : slotImage f disk slot = blankImage) : ¬Intact f disk c slot := by
  intro hint
  have hmagic := hint.magic
  rw [h, blankImage, getU64_replicate] at hmagic
  exact absurd hmagic (by decide)

end TwoSlots

/-- Both slots hold version 1 and two tries are left. -/
theorem rolls_back_within_goodImages :
    ∃ k ≤ MAX_TRIES.toNat + 1, WentBack smallFs (probation 2)
      (boots smallFs k (twoSlots 2 (buildImage 1 true) (buildImage 1 true))).disk :=
  (rolls_back_within working_twoSlots onProbation_twoSlots (by decide)).mpr
    ⟨.inr (intact_of_built slotImage_twoSlots_one rfl rfl), by decide⟩

/-- The slot on probation holds zeros: three boots later it is still the active one. -/
theorem blank_slot_stays :
    Working smallFs (twoSlots 2 (buildImage 1 true) blankImage) ∧
      OnProbation smallFs (twoSlots 2 (buildImage 1 true) blankImage).disk (probation 2) ∧
      (probation 2).tries ≤ MAX_TRIES ∧
      Intact smallFs (twoSlots 2 (buildImage 1 true) blankImage).disk (probation 2)
        (probation 2).other ∧
      ¬∃ k ≤ MAX_TRIES.toNat + 1, WentBack smallFs (probation 2)
        (boots smallFs k (twoSlots 2 (buildImage 1 true) blankImage)).disk := by
  refine ⟨working_twoSlots, onProbation_twoSlots, by decide,
    intact_of_built slotImage_twoSlots_zero rfl rfl, ?_⟩
  rintro ⟨k, -, hback⟩
  refine onProbation_twoSlots.never_goes_back working_twoSlots (fun hb => ?_) hback
  rcases hb.1 with ht | hint
  · exact absurd ht (by decide)
  · exact not_intact_blankImage slotImage_twoSlots_one hint

/-! ## What a call of `boot` measured -/

/-- `bootActive`, with what its `load` returned. -/
def bootActiveSeen (f : Fs) (c : Control) : Blk ((Control × Outcome) × List (Fin 2 × Image)) := do
  let slot := c.active
  match ← Blk.attempt (load f slot) with
  | .error _ => pure ((c, .corrupt slot), [])
  | .ok img =>
    if img.digest ≠ c.digest slot ∨ img.version ≠ c.version slot then
      pure ((c, .corrupt slot), [(slot, img)])
    else if c.state slot = .unverified then do
      let c := { c with tries := saturatingPred c.tries }
      let (_, c) ← writeControl f c
      pure ((c, .trying slot img.version c.tries (img.flags &&& FLAG_HEALTHY != 0)), [(slot, img)])
    else pure ((c, .running slot img.version), [(slot, img)])

/-- `boot`, with what every `load` of the call returned. -/
def bootSeen (f : Fs) : Blk ((Control × Outcome) × List (Fin 2 × Image)) := do
  match ← readControl f with
  | none => pure ((Control.blank, .fresh), [])
  | some c =>
    if c.state c.active = .unverified ∧ c.tries = 0 then
      let source := c.active
      let target := c.other
      if c.state target = .successful then do
        let c := { c with
          state := Function.update c.state source .failed
          active := target
          rollbacks := saturatingSucc c.rollbacks }
        let (_, c) ← writeControl f c
        pure ((c, .rolledBack source target (c.version target)), [])
      else do
        let (_, c) ← writeControl f { c with tries := 1 }
        bootActiveSeen f c
    else bootActiveSeen f c

section Seen

variable {f : Fs} {c : Control} {slot : Fin 2}

theorem bootActiveSeen_fst (f : Fs) (c : Control) :
    (bootActiveSeen f c >>= fun r => pure r.1) = bootActive f c := by
  unfold bootActiveSeen bootActive
  rw [bind_assoc]
  congr 1
  funext r
  cases r with
  | error e => rfl
  | ok img =>
    dsimp only
    split_ifs
    · rfl
    · rw [bind_assoc]
      rfl
    · rfl

/-- Without what it saw, it is `boot`. -/
theorem bootSeen_fst (f : Fs) : (bootSeen f >>= fun r => pure r.1) = boot f := by
  unfold bootSeen boot
  rw [bind_assoc]
  congr 1
  funext r
  cases r with
  | none => rfl
  | some c =>
    dsimp only
    split_ifs
    · rw [bind_assoc]
      rfl
    · rw [bind_assoc]
      congr 1
      funext r
      exact bootActiveSeen_fst f r.2
    · exact bootActiveSeen_fst f c

/-- The slot that an outcome names to run from. -/
def Outcome.Names : Outcome → Fin 2 → Prop
  | .trying slot _ _ _, s => s = slot
  | .rolledBack _ target _, s => s = target
  | .running slot _, s => s = slot
  | _, _ => False

/-- The bytes that the slot holds were measured, with the digest and the version that
the control block records for it. -/
def Measured (f : Fs) (disk : Disk) (c : Control) (slot : Fin 2) (seen : List (Fin 2 × Image)) :
    Prop :=
  ∃ image, (slot, image) ∈ seen ∧ measure (slotImage f disk slot) = .ok image ∧
    image.digest = c.digest slot ∧ image.version = c.version slot

/-- The control block can be read, its active slot is on probation with no tries
left, and the other slot is marked `Successful`. -/
def OutOfTries (f : Fs) (d : Device) : Prop :=
  d.reads.headD .ok = .ok ∧ f.otaStart.toNat < d.capacity ∧
    ∃ c, OnProbation f d.disk c ∧ c.tries = 0

theorem readImage_ok {base : UInt64} {k : ℕ} (hk : k ≤ 8) {d d' : Device} {img : ImageBytes}
    (h : readImage base k d = (.ok img, d')) :
    img = imageAt d.disk base.toNat k ∧ d'.disk = d.disk := by
  induction k generalizing img d' with
  | zero => cases h; exact ⟨rfl, rfl⟩
  | succ k ih =>
    have hofNat : (UInt64.ofNat k).toNat = k := by
      rw [UInt64.toNat_ofNat']
      omega
    obtain ⟨img₁, d₁, h₁, h⟩ := bind_eq_ok h
    obtain ⟨pos, d₂, hpos, h⟩ := bind_eq_ok h
    obtain ⟨sector, d₃, hread, h⟩ := bind_eq_ok h
    obtain ⟨rfl, rfl⟩ := pure_eq_ok h
    obtain ⟨rfl, hdisk⟩ := ih (by omega) h₁
    obtain ⟨hsum, rfl⟩ := addU64_ok hpos
    obtain ⟨rfl, rfl⟩ := readSector_ok hread
    rw [hsum, hofNat, hdisk]
    exact ⟨rfl, rfl⟩

/-- A `load` that returned `Ok` measured the slot as it lies on the disk. -/
theorem load_ok {d d' : Device} {image : Image} (h : load f slot d = (.ok image, d')) :
    measure (slotImage f d.disk slot) = .ok image ∧ d'.disk = d.disk := by
  have h8 : IMAGE_BYTES / SECTOR_SIZE = 8 := rfl
  unfold load at h
  rw [h8] at h
  obtain ⟨base, d₁, hbase, h⟩ := bind_eq_ok h
  obtain ⟨img, d₃, himg, h⟩ := bind_eq_ok h
  obtain ⟨heq, rfl⟩ := slotSector_ok hbase
  obtain ⟨rfl, hdisk⟩ := readImage_ok le_rfl himg
  rw [slotImage, ← heq]
  cases hm : measure (imageAt d₁.disk base.toNat 8) with
  | error e =>
    rw [hm] at h
    cases h
  | ok image' =>
    rw [hm] at h
    obtain ⟨rfl, rfl⟩ := pure_eq_ok h
    exact ⟨rfl, hdisk⟩

/-- A control block lands in its own sector or nowhere. -/
theorem touches_writeControl (f : Fs) (c : Control) :
    Touches (fun x _ => x = f.otaStart.toNat) (writeControl f c) :=
  .addU64_bind fun _ _ => .bind (.attempt (touches_writeSector rfl)) fun _ => .pure _

/-- A control block write leaves the slots, and what is recorded about them, alone. -/
theorem writeControl_ok {d d' : Device} {r : Except String Unit} {c' : Control} (slot : Fin 2)
    (h : writeControl f c d = (.ok (r, c'), d')) :
    c'.digest = c.digest ∧ c'.version = c.version ∧
      slotImage f d'.disk slot = slotImage f d.disk slot := by
  have hframe := touches_writeControl f c d
  rw [h] at hframe
  refine ⟨?_, ?_, imageAt_congr 8 fun s _ => ?_⟩
  · obtain ⟨seq, d₁, -, h⟩ := bind_eq_ok h
    obtain ⟨r', d₂, -, h⟩ := bind_eq_ok h
    cases (pure_eq_ok h).1
    rfl
  · obtain ⟨seq, d₁, -, h⟩ := bind_eq_ok h
    obtain ⟨r', d₂, -, h⟩ := bind_eq_ok h
    cases (pure_eq_ok h).1
    rfl
  · have hlt := lt_slotBase f slot
    exact (hframe.disk _).resolve_right (by omega)

theorem bootActiveSeen_names {d d' : Device} {c' : Control} {outcome : Outcome}
    {seen : List (Fin 2 × Image)} (h : bootActiveSeen f c d = (.ok ((c', outcome), seen), d'))
    (hs : outcome.Names slot) : Measured f d.disk c' slot seen := by
  unfold bootActiveSeen at h
  obtain ⟨r, d₁, hload, h⟩ := bind_eq_ok h
  cases r with
  | error e =>
    cases (pure_eq_ok h).1
    exact hs.elim
  | ok image =>
    have hm := (load_ok (attempt_eq_ok hload)).1
    dsimp only at h
    split_ifs at h with heq hstate
    · cases (pure_eq_ok h).1
      exact hs.elim
    · obtain ⟨hd, hv⟩ := not_or.mp heq
      obtain ⟨⟨r, c₁⟩, d₂, hwrite, h⟩ := bind_eq_ok h
      obtain ⟨hd', hv', -⟩ := writeControl_ok slot hwrite
      cases (pure_eq_ok h).1
      cases hs
      exact ⟨image, List.mem_singleton_self _, hm, (not_not.mp hd).trans (congrFun hd'.symm _),
        (not_not.mp hv).trans (congrFun hv'.symm _)⟩
    · obtain ⟨hd, hv⟩ := not_or.mp heq
      cases (pure_eq_ok h).1
      cases hs
      exact ⟨image, List.mem_singleton_self _, hm, not_not.mp hd, not_not.mp hv⟩

/-- The control block that is read is the one on the disk. -/
theorem readControl_ok {d d' : Device} {r : Option Control} (h : readControl f d = (.ok r, d')) :
    d'.disk = d.disk ∧
      (d.reads.headD .ok = .ok ∧ f.otaStart.toNat < d.capacity ∧
          r = Control.decode (d.disk f.otaStart.toNat) ∨
        ¬(d.reads.headD .ok = .ok ∧ f.otaStart.toNat < d.capacity) ∧ r = none) := by
  unfold readControl at h
  rcases readSector_cases f.otaStart.toNat d with ⟨hread, hcap, hok⟩ | ⟨hread, hno⟩
  · rw [bind_of_ok (attempt_of_ok hread)] at h
    obtain ⟨rfl, rfl⟩ := pure_eq_ok h
    exact ⟨rfl, .inl ⟨hok, hcap, rfl⟩⟩
  · rw [bind_of_ok (attempt_of_err hread)] at h
    obtain ⟨rfl, rfl⟩ := pure_eq_ok h
    exact ⟨rfl, .inr ⟨fun ⟨hok, hcap⟩ => hno ⟨hcap, hok⟩, rfl⟩⟩

/-- Whenever `boot` returns: every slot that its outcome names was measured in that
call, if and only if it did not find a slot out of tries. The destination of a
rollback is named on the strength of the control block alone. -/
theorem names_measured_slot {d d' : Device} {outcome : Outcome} {seen : List (Fin 2 × Image)}
    (h : bootSeen f d = (.ok ((c, outcome), seen), d')) :
    (∀ slot, outcome.Names slot → Measured f d.disk c slot seen) ↔ ¬OutOfTries f d := by
  unfold bootSeen at h
  obtain ⟨r, d₁, hread, h⟩ := bind_eq_ok h
  obtain ⟨hdisk, hr⟩ := readControl_ok hread
  cases r with
  | none =>
    cases (pure_eq_ok h).1
    refine iff_of_true (fun _ => False.elim) ?_
    rintro ⟨hok, hcap, c₀, hc₀, -⟩
    rcases hr with ⟨-, -, hr⟩ | ⟨hno, -⟩
    · rw [hc₀.decode] at hr
      cases hr
    · exact hno ⟨hok, hcap⟩
  | some c₀ =>
    obtain ⟨hok, hcap, hdecode⟩ := hr.resolve_right fun hno => by cases hno.2
    have hcond : OutOfTries f d ↔
        (c₀.state c₀.active = .unverified ∧ c₀.tries = 0) ∧ c₀.state c₀.other = .successful := by
      constructor
      · rintro ⟨-, -, c₁, hc₁, ht⟩
        cases hdecode.trans hc₁.decode
        exact ⟨⟨hc₁.active, ht⟩, hc₁.other⟩
      · rintro ⟨⟨hactive, ht⟩, hother⟩
        exact ⟨hok, hcap, c₀, ⟨hdecode.symm, hactive, hother⟩, ht⟩
    rw [hcond]
    dsimp only at h
    split_ifs at h with hspent hother
    · -- the rollback names its destination and has measured nothing
      obtain ⟨⟨r, c₁⟩, d₂, -, h⟩ := bind_eq_ok h
      cases (pure_eq_ok h).1
      refine iff_of_false (fun hall => ?_) (not_not.mpr ⟨hspent, hother⟩)
      obtain ⟨image, hmem, -⟩ := hall c₀.other rfl
      exact List.not_mem_nil hmem
    · obtain ⟨⟨r, c₁⟩, d₂, hwrite, h⟩ := bind_eq_ok h
      refine iff_of_true (fun slot hs => ?_) fun hno => hother hno.2
      obtain ⟨image, hmem, hm, hd, hv⟩ := bootActiveSeen_names h hs
      obtain ⟨-, -, himage⟩ := writeControl_ok slot hwrite
      rw [himage, hdisk] at hm
      exact ⟨image, hmem, hm, hd, hv⟩
    · refine iff_of_true (fun slot hs => ?_) fun hno => hspent hno.1
      have hmeasured := bootActiveSeen_names h hs
      rwa [hdisk] at hmeasured

/-- A slot on probation that is what the control block says is named. -/
theorem bootSeen_trying {d : Device} (h : OnProbation f d.disk c) (hw : Working f d)
    (ht : c.tries ≠ 0) (hint : Intact f d.disk c c.active) (hseq : c.seq.toNat + 1 < 2 ^ 64) :
    ∃ c' outcome seen d', bootSeen f d = (.ok ((c', outcome), seen), d') ∧
      outcome.Names c.active := by
  obtain ⟨image, hm, hd, hv⟩ := hint.measure
  unfold bootSeen
  rw [bind_of_ok hw.readControl, h.decode]
  dsimp only
  rw [if_neg fun hspent => ht hspent.2]
  unfold bootActiveSeen
  rw [bind_of_ok (hw.load c.active), hm]
  dsimp only
  rw [if_neg (by simp [hd, hv]), if_pos h.active]
  rcases hw.writeControl { c with tries := saturatingPred c.tries } with
    ⟨-, seq, -, hwrite⟩ | ⟨hge, -⟩
  · rw [bind_of_ok hwrite]
    exact ⟨_, _, _, _, rfl, rfl⟩
  · dsimp only at hge
    omega

/-- A rollback names the other slot and has measured nothing. -/
theorem bootSeen_spent {d : Device} (h : OnProbation f d.disk c) (hw : Working f d)
    (ht : c.tries = 0) (hseq : c.seq.toNat + 1 < 2 ^ 64) :
    ∃ c' version d', bootSeen f d = (.ok ((c', .rolledBack c.active c.other version), []), d') := by
  unfold bootSeen
  rw [bind_of_ok hw.readControl, h.decode]
  dsimp only
  rw [if_pos ⟨h.active, ht⟩, if_pos h.other]
  rcases hw.writeControl { c with
      state := Function.update c.state c.active .failed
      active := c.other
      rollbacks := saturatingSucc c.rollbacks } with ⟨-, seq, -, hwrite⟩ | ⟨hge, -⟩
  · rw [bind_of_ok hwrite]
    exact ⟨_, _, _, rfl⟩
  · dsimp only at hge
    omega

end Seen

/-- Slot 1 has a try left and holds what is recorded: `boot` names it, measured. -/
theorem names_measured_slot_goodImages :
    ∃ c outcome seen d',
      bootSeen smallFs (twoSlots 1 (buildImage 1 true) (buildImage 1 true)) =
        (.ok ((c, outcome), seen), d') ∧ outcome.Names 1 ∧
      Measured smallFs (twoSlots 1 (buildImage 1 true) (buildImage 1 true)).disk c 1 seen := by
  obtain ⟨c, outcome, seen, d', hrun, hnames⟩ := bootSeen_trying onProbation_twoSlots
    working_twoSlots (by decide : (probation 1).tries ≠ 0) (intact_of_built slotImage_twoSlots_one rfl rfl)
    (by decide)
  refine ⟨c, outcome, seen, d', hrun, hnames, (names_measured_slot hrun).mpr ?_ 1 hnames⟩
  rintro ⟨-, -, c', hc', ht⟩
  cases onProbation_twoSlots.decode.symm.trans hc'.decode
  exact absurd ht (by decide)

/-- Slot 0 holds zeros, and the rollback goes there without a look at it. -/
theorem rolls_back_unmeasured :
    ∃ c outcome seen d',
      bootSeen smallFs (twoSlots 0 blankImage blankImage) = (.ok ((c, outcome), seen), d') ∧
        outcome.Names 0 ∧ ¬Measured smallFs (twoSlots 0 blankImage blankImage).disk c 0 seen ∧
        ¬Intact smallFs (twoSlots 0 blankImage blankImage).disk c 0 := by
  obtain ⟨c, version, d', hrun⟩ := bootSeen_spent onProbation_twoSlots
    (@working_twoSlots 0 blankImage blankImage) rfl (by decide)
  refine ⟨c, _, _, d', hrun, rfl, ?_, not_intact_blankImage slotImage_twoSlots_zero⟩
  rintro ⟨image, hmem, -⟩
  exact List.not_mem_nil hmem

end JungeyOs.Ota
