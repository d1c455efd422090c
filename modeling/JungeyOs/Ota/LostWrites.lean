import JungeyOs.Ota.Boot

/-!
# Control block writes that fail

`ota::boot`, `stage` and `mark_successful` (`kernel/src/ota.rs`, lines 197–327) change the control
block in memory and write it afterwards. `boot` does not look at what the write returns, and the
other two pass its error on with the changed block in the hands of their caller. Here a write that
returns `Err` has not landed.

Results:
* `bootActive_kept_iff`: exactly when the disk knows the tries that `boot` reports.
* `writeImage_of_ok`, `writeImage_progress`: exactly when all sectors of an image are written.
* `kept_iff`: exactly which failures a call does not survive.
* `boot_unrecorded`: a boot that reports a try which the disk has not spent.
-/

namespace JungeyOs.Ota

open JungeyOs.Bytes JungeyOs.Jlfs Blk

/-- The calls that write a control block. -/
inductive Update
  | boot
  | stage (slot : Fin 2) (version : UInt64) (healthy : Bool)
  | markSuccessful

/-- `c` is the control block on the disk. -/
def OnDisk (f : Fs) (d : Device) (c : Control) : Prop :=
  Control.decode (d.disk f.otaStart.toNat) = some c

/-- When `boot` returns `Trying`, the disk has the tries that it reports; when `stage` or
`mark_successful` returns `Err`, the block in memory is what it was, and the one on the disk. -/
def Kept (f : Fs) (c : Control) (d : Device) : Update → Prop
  | .boot => ∀ c' slot version triesLeft healthy d',
      boot f d = (.ok (c', .trying slot version triesLeft healthy), d') →
        ∃ stored, OnDisk f d' stored ∧ stored.tries = triesLeft
  | .stage slot version healthy => ∀ e c' d',
      stage f c slot version healthy d = (.ok (.error e, c'), d') → c' = c ∧ OnDisk f d' c'
  | .markSuccessful => ∀ e c' d',
      markSuccessful f c d = (.ok (.error e, c'), d') → c' = c ∧ OnDisk f d' c'

/-- The fate of a write of this sector that `k` other writes precede. -/
def fate (d : Device) (k sector : ℕ) : WriteFate :=
  ({ d with writes := d.writes.drop k } : Device).nextWrite sector

/-- The active slot can be read, and is what the control block says. -/
def Loads (f : Fs) (c : Control) (d : Device) : Prop :=
  ∃ image, (load f c.active d).1 = .ok image ∧ image.digest = c.digest c.active ∧
    image.version = c.version c.active

/-- The write of a changed control block is lost: in `boot` the one that spends the try, where an
earlier one has not left the disk at the same number; in `stage` the one behind the image. -/
def Lost (f : Fs) (c : Control) (d : Device) : Update → Prop
  | .boot => (d.reads.headD .ok = .ok ∧ f.otaStart.toNat < d.capacity) ∧
      c.state c.active = .unverified ∧ Loads f c { d with reads := d.reads.tail } ∧
      (c.tries ≠ 0 ∧ c.seq.toNat + 1 < 2 ^ 64 ∧ fate d 0 f.otaStart.toNat = .lost ∨
        c.tries = 0 ∧ c.state c.other ≠ .successful ∧ c.seq.toNat + 2 < 2 ^ 64 ∧
          fate d 0 f.otaStart.toNat = .ok ∧ fate d 1 f.otaStart.toNat = .lost)
  | .stage slot _ _ => (slotBase f slot + 7 < 2 ^ 64 ∧
      ∀ k < 8, fate d k (slotBase f slot + k) = .ok) ∧
      c.seq.toNat + 1 < 2 ^ 64 ∧ fate d 8 f.otaStart.toNat = .lost
  | .markSuccessful => c.seq.toNat + 1 < 2 ^ 64 ∧ fate d 0 f.otaStart.toNat = .lost

section

variable {f : Fs} {c : Control} {d d' : Device}

/-! ## The control block -/

/-- Everything a write of a control block can do. -/
theorem writeControl_cases (hl : WriteFate.landed ∉ d.writes) (f : Fs) (c : Control) :
    (c.seq.toNat + 1 < 2 ^ 64 ∧ ∃ seq : UInt64, seq.toNat = c.seq.toNat + 1 ∧
      (fate d 0 f.otaStart.toNat = .ok ∧ writeControl f c d = (.ok (.ok (), { c with seq := seq }),
          ({ d with writes := d.writes.tail } : Device).store f.otaStart.toNat
            (Control.encode { c with seq := seq })) ∨
        fate d 0 f.otaStart.toNat = .lost ∧ ∃ e, writeControl f c d =
          (.ok (.error e, { c with seq := seq }), { d with writes := d.writes.tail }))) ∨
    (¬(c.seq.toNat + 1 < 2 ^ 64 ∧ (fate d 0 f.otaStart.toNat = .ok ∨
        fate d 0 f.otaStart.toNat = .lost)) ∧ ∀ a d', writeControl f c d ≠ (.ok a, d')) := by
  have hone : (1 : UInt64).toNat = 1 := rfl
  have hfate : fate d 0 f.otaStart.toNat = d.nextWrite f.otaStart.toNat := rfl
  rw [hfate]
  rcases addU64_cases c.seq 1 d with ⟨seq, hseq, hsum⟩ | ⟨hpanic, hge⟩
  · have hlt := seq.toNat_lt
    generalize hdata : Control.encode { c with seq := seq } = data
    have hrun : writeControl f c d =
        (attempt (writeSector f.otaStart.toNat data) >>= fun r => pure (r, { c with seq := seq })) d := by
      rw [← hdata]
      exact bind_of_ok hseq
    rw [hrun]
    have hwrite : writeSector f.otaStart.toNat data d = outcome (d.nextWrite f.otaStart.toNat)
      f.otaStart.toNat data { d with writes := d.writes.tail } := rfl
    cases hnext : d.nextWrite f.otaStart.toNat with
    | ok =>
      rw [hnext] at hwrite
      refine .inl ⟨by omega, seq, by omega, .inl ⟨rfl, ?_⟩⟩
      rw [bind_of_ok (attempt_of_ok hwrite), hdata]
      rfl
    | lost =>
      rw [hnext] at hwrite
      exact .inl ⟨by omega, seq, by omega,
        .inr ⟨rfl, _, by rw [bind_of_ok (attempt_of_err hwrite)]; rfl⟩⟩
    | landed => exact absurd (mem_of_nextWrite_landed hnext) hl
    | cutBefore =>
      rw [hnext] at hwrite
      refine .inr ⟨by simp, fun a d' h => ?_⟩
      have hhalt : attempt (writeSector f.otaStart.toNat data) d =
          (.halted .powerOff, { d with writes := d.writes.tail }) := by
        rw [attempt, hwrite]
        rfl
      rw [bind_of_halted hhalt] at h
      cases h
    | cutAfter =>
      rw [hnext] at hwrite
      refine .inr ⟨by simp, fun a d' h => ?_⟩
      have hhalt : attempt (writeSector f.otaStart.toNat data) d = (.halted .powerOff,
          ({ d with writes := d.writes.tail } : Device).store f.otaStart.toNat data) := by
        rw [attempt, hwrite]
        rfl
      rw [bind_of_halted hhalt] at h
      cases h
  · refine .inr ⟨fun h => ?_, fun a d' h => ?_⟩
    · omega
    · rw [writeControl, bind_of_halted hpanic] at h
      cases h

/-- The control block that was stored is on the disk. -/
theorem onDisk_store (f : Fs) (d : Device) (c : Control) :
    OnDisk f (d.store f.otaStart.toNat c.encode) c := decode_store f d c

/-! ## Measuring -/

/-- A slot is read alike from devices that have the same reads to come and the same slot. -/
theorem readImage_congr {e : Device} {base : UInt64} (hcap : e.capacity = d.capacity)
    (hreads : e.reads = d.reads) {k : ℕ} (hk : k ≤ 8)
    (hdisk : ∀ s < k, e.disk (base.toNat + s) = d.disk (base.toNat + s)) :
    ∃ x reads, readImage base k e = (x, { e with reads := reads }) ∧
      readImage base k d = (x, { d with reads := reads }) := by
  induction k with
  | zero => exact ⟨_, d.reads, by rw [← hreads]; rfl, rfl⟩
  | succ k ih =>
    obtain ⟨x, reads, he, hd⟩ := ih (by omega) fun s hs => hdisk s (by omega)
    unfold readImage
    rw [bind_apply, bind_apply, he, hd]
    cases x with
    | err msg => exact ⟨_, reads, rfl, rfl⟩
    | halted why => exact ⟨_, reads, rfl, rfl⟩
    | ok image =>
      dsimp only
      have hofNat : (UInt64.ofNat k).toNat = k := by
        rw [UInt64.toNat_ofNat']
        omega
      rcases addU64_cases base (UInt64.ofNat k) { d with reads := reads } with ⟨pos, hpos, hsum⟩ | ⟨hpos, -⟩
      · rw [bind_of_ok hpos, bind_of_ok (addU64_congr hpos { e with reads := reads })]
        have hsame : e.disk pos.toNat = d.disk pos.toNat := by
          rw [hsum, hofNat]
          exact hdisk k (by omega)
        rcases readSector_cases pos.toNat { d with reads := reads } with
          ⟨hread, hlt, hok⟩ | ⟨hread, hnot⟩
        · rcases readSector_cases pos.toNat { e with reads := reads } with
            ⟨hread', -⟩ | ⟨-, hnot'⟩
          · rw [bind_of_ok hread, bind_of_ok hread']
            refine ⟨_, reads.tail, ?_, rfl⟩
            dsimp only
            rw [hsame]
            rfl
          · exact absurd ⟨by rw [hcap]; exact hlt, hok⟩ hnot'
        · rcases readSector_cases pos.toNat { e with reads := reads } with
            ⟨-, hlt', hok'⟩ | ⟨hread', -⟩
          · exact absurd ⟨by rw [← hcap]; exact hlt', hok'⟩ hnot
          · rw [bind_of_err hread, bind_of_err hread']
            exact ⟨_, reads.tail, rfl, rfl⟩
      · rw [bind_of_halted hpos, bind_of_halted (addU64_congr hpos { e with reads := reads })]
        exact ⟨_, reads, rfl, rfl⟩

/-- A slot is measured alike on such devices. -/
theorem load_congr {e : Device} {slot : Fin 2} (hcap : e.capacity = d.capacity)
    (hreads : e.reads = d.reads)
    (hdisk : ∀ s < 8, e.disk (slotBase f slot + s) = d.disk (slotBase f slot + s)) :
    ∃ x reads, load f slot e = (x, { e with reads := reads }) ∧
      load f slot d = (x, { d with reads := reads }) := by
  have h8 : IMAGE_BYTES / SECTOR_SIZE = 8 := rfl
  have hpanic : ∀ e : Device, (load f slot e = (.halted .panic, e) ∧ load f slot d = (.halted .panic, d)) →
      e.reads = d.reads → ∃ x reads, load f slot e = (x, { e with reads := reads }) ∧
        load f slot d = (x, { d with reads := reads }) := by
    rintro e ⟨he, hd⟩ hreads
    exact ⟨_, d.reads, by rw [he, ← hreads], hd⟩
  rcases addU64_cases f.otaStart 1 d with ⟨first, hfirst, -⟩ | ⟨hfirst, -⟩
  · rcases addU64_cases first (UInt64.ofNat slot.val * OTA_SLOT_SECTORS) d with
      ⟨base, hbase, -⟩ | ⟨hbase, -⟩
    · have hd : slotSector f slot d = (.ok base, d) := by
        unfold slotSector
        rw [bind_of_ok hfirst, hbase]
      have he : slotSector f slot e = (.ok base, e) := by
        unfold slotSector
        rw [bind_of_ok (addU64_congr hfirst e), addU64_congr hbase e]
      have hsame : ∀ s < 8, e.disk (base.toNat + s) = d.disk (base.toNat + s) := by
        rw [(slotSector_ok hd).1]
        exact hdisk
      obtain ⟨x, reads, he', hd'⟩ := readImage_congr hcap hreads le_rfl hsame
      unfold load
      rw [h8, bind_of_ok he, bind_of_ok hd, bind_apply, bind_apply, he', hd']
      cases x with
      | err msg => exact ⟨_, reads, rfl, rfl⟩
      | halted why => exact ⟨_, reads, rfl, rfl⟩
      | ok image =>
        dsimp only
        cases measure image <;> exact ⟨_, reads, rfl, rfl⟩
    · refine hpanic e ⟨?_, ?_⟩ hreads
      · unfold load slotSector
        rw [bind_of_halted (by rw [bind_of_ok (addU64_congr hfirst e), addU64_congr hbase e])]
      · unfold load slotSector
        rw [bind_of_halted (by rw [bind_of_ok hfirst, hbase])]
  · refine hpanic e ⟨?_, ?_⟩ hreads
    · unfold load slotSector
      rw [bind_of_halted (bind_of_halted (addU64_congr hfirst e))]
    · unfold load slotSector
      rw [bind_of_halted (bind_of_halted hfirst)]

theorem loads_congr {e : Device} {c' : Control} (hactive : c'.active = c.active)
    (hdigest : c'.digest = c.digest) (hversion : c'.version = c.version)
    (hcap : e.capacity = d.capacity) (hreads : e.reads = d.reads)
    (hdisk : ∀ s < 8, e.disk (slotBase f c.active + s) = d.disk (slotBase f c.active + s)) :
    Loads f c' e ↔ Loads f c d := by
  obtain ⟨x, reads, he, hd⟩ := load_congr hcap hreads hdisk
  unfold Loads
  rw [hactive, hdigest, hversion, he, hd]

/-! ## Booting -/

/-- The active slot is what the control block says, and on probation. -/
theorem bootActive_of_loads (h : Loads f c d) (hstate : c.state c.active = .unverified) :
    ∃ version healthy reads, bootActive f c d =
      (writeControl f { c with tries := saturatingPred c.tries } >>= fun r =>
        pure (r.2, .trying c.active version r.2.tries healthy)) { d with reads := reads } := by
  obtain ⟨image, himage, hdigest, hversion⟩ := h
  have hsame : ∀ s < 8, d.disk (slotBase f c.active + s) = d.disk (slotBase f c.active + s) :=
    fun _ _ => rfl
  obtain ⟨x, reads, hload, -⟩ := load_congr rfl rfl hsame
  obtain rfl : x = .ok image := by rw [← himage, hload]
  refine ⟨image.version, image.flags &&& FLAG_HEALTHY != 0, reads, ?_⟩
  unfold bootActive
  rw [bind_of_ok (attempt_of_ok hload)]
  dsimp only
  rw [if_neg (by simp [hdigest, hversion]), if_pos hstate]

/-- In every other case no try is spent. -/
theorem bootActive_not_trying (h : ¬(c.state c.active = .unverified ∧ Loads f c d)) {c' : Control}
    {slot : Fin 2} {version : UInt64} {triesLeft : UInt8} {healthy : Bool} :
    bootActive f c d ≠ (.ok (c', .trying slot version triesLeft healthy), d') := by
  intro hrun
  unfold bootActive at hrun
  obtain ⟨r, d₁, hload, hrun⟩ := bind_eq_ok hrun
  cases r with
  | error e => cases hrun
  | ok image =>
    dsimp only at hrun
    split_ifs at hrun with hne hstate
    · cases hrun
    · obtain ⟨hd, hv⟩ := not_or.mp hne
      exact h ⟨hstate, image, by rw [attempt_eq_ok hload], not_not.mp hd, not_not.mp hv⟩
    · cases hrun

/-- The disk knows the tries that `boot` reports, unless the write that spends the try is lost and
the disk says another number. -/
theorem bootActive_kept_iff (hl : WriteFate.landed ∉ d.writes) {stored : Control}
    (hs : OnDisk f d stored) :
    (∀ c' slot version triesLeft healthy d',
      bootActive f c d = (.ok (c', .trying slot version triesLeft healthy), d') →
        ∃ stored, OnDisk f d' stored ∧ stored.tries = triesLeft) ↔
    ¬((c.state c.active = .unverified ∧ Loads f c d) ∧ c.seq.toNat + 1 < 2 ^ 64 ∧
      fate d 0 f.otaStart.toNat = .lost ∧ stored.tries ≠ saturatingPred c.tries) := by
  by_cases hloads : c.state c.active = .unverified ∧ Loads f c d
  · obtain ⟨version, healthy, reads, hrun⟩ := bootActive_of_loads hloads.2 hloads.1
    have hfate : fate { d with reads := reads } 0 f.otaStart.toNat = fate d 0 f.otaStart.toNat := rfl
    have hcases := writeControl_cases (d := { d with reads := reads }) hl f
      { c with tries := saturatingPred c.tries }
    rw [hfate] at hcases
    rcases hcases with ⟨hseq, seq, -, ⟨hok, hwrite⟩ | ⟨hlost, e, hwrite⟩⟩ | ⟨hnot, hhalt⟩
    · refine iff_of_true (fun c' slot version triesLeft healthy d' h => ?_) fun h => ?_
      · rw [hrun, bind_of_ok hwrite] at h
        cases h
        exact ⟨_, onDisk_store f _ _, rfl⟩
      · rw [hok] at h
        cases h.2.2.1
    · rw [bind_of_ok hwrite] at hrun
      constructor
      · rintro h ⟨-, -, -, hne⟩
        obtain ⟨stored', hs', htries⟩ := h _ _ _ _ _ _ hrun
        obtain rfl : stored = stored' := Option.some.inj (hs.symm.trans hs')
        exact hne htries
      · intro h c' slot version triesLeft healthy d' hrun'
        rw [hrun] at hrun'
        cases hrun'
        refine ⟨stored, hs, ?_⟩
        by_contra hne
        exact h ⟨hloads, hseq, hlost, hne⟩
    · refine iff_of_true (fun c' slot version triesLeft healthy d' h => ?_) fun h => ?_
      · rw [hrun] at h
        obtain ⟨r, d₁, hwrite, -⟩ := bind_eq_ok h
        exact absurd hwrite (hhalt r d₁)
      · exact hnot ⟨h.2.1, .inr h.2.2.1⟩
  · refine iff_of_true (fun c' slot version triesLeft healthy d' h => ?_) fun h => hloads h.1
    exact absurd h (bootActive_not_trying hloads)

theorem saturatingPred_ne (v : UInt8) : v ≠ saturatingPred v ↔ v ≠ 0 := by
  have hzero : (0 : UInt8).toNat = 0 := rfl
  rw [not_iff_not, ← UInt8.toNat_inj, ← UInt8.toNat_inj, saturatingPred_toNat, hzero]
  omega

/-- `boot` reports tries that the disk does not have exactly when the write that spends the try is
lost, unless an earlier one was lost as well. -/
theorem boot_kept_iff (hl : WriteFate.landed ∉ d.writes) (hs : OnDisk f d c) :
    Kept f c d .boot ↔ ¬Lost f c d .boot := by
  unfold Kept Lost boot
  rcases readSector_cases f.otaStart.toNat d with ⟨hread, hcap, hok⟩ | ⟨hread, hnot⟩
  swap
  · have hcontrol : readControl f d = (.ok none, { d with reads := d.reads.tail }) := by
      unfold readControl
      rw [bind_of_ok (attempt_of_err hread)]
      rfl
    refine iff_of_true (fun c' slot version triesLeft healthy d' h => ?_) fun h =>
      hnot ⟨h.1.2, h.1.1⟩
    rw [bind_of_ok hcontrol] at h
    cases h
  have hcontrol : readControl f d = (.ok (some c), { d with reads := d.reads.tail }) := by
    unfold readControl
    rw [bind_of_ok (attempt_of_ok hread), ← show _ = some c from hs]
    rfl
  rw [bind_of_ok hcontrol]
  dsimp only
  have hreadable : d.reads.headD .ok = .ok ∧ f.otaStart.toNat < d.capacity := ⟨hok, hcap⟩
  by_cases hspent : c.state c.active = .unverified ∧ c.tries = 0
  · rw [if_pos hspent]
    by_cases hother : c.state c.other = .successful
    · -- the other slot is booted, and nothing is tried
      rw [if_pos hother]
      refine iff_of_true (fun c' slot version triesLeft healthy d' h => ?_) ?_
      · obtain ⟨r, d₁, -, h⟩ := bind_eq_ok h
        cases h
      · rintro ⟨-, -, -, ⟨hne, -⟩ | ⟨-, hne, -⟩⟩
        · exact hne hspent.2
        · exact hne hother
    · rw [if_neg hother]
      have hlost : ∀ P : Prop, (c.tries ≠ 0 ∧ c.seq.toNat + 1 < 2 ^ 64 ∧
          fate d 0 f.otaStart.toNat = .lost ∨ c.tries = 0 ∧ c.state c.other ≠ .successful ∧ P) ↔ P :=
        fun P => ⟨fun h => h.elim (fun h => absurd hspent.2 h.1) fun h => h.2.2,
          fun h => .inr ⟨hspent.2, hother, h⟩⟩
      rw [hlost]
      have hfate : fate { d with reads := d.reads.tail } 0 f.otaStart.toNat =
          fate d 0 f.otaStart.toNat := rfl
      have hcases := writeControl_cases (d := { d with reads := d.reads.tail }) hl f
        { c with tries := 1 }
      rw [hfate] at hcases
      have htail : WriteFate.landed ∉ d.writes.tail := fun h => hl (List.mem_of_mem_tail h)
      have hdrop : ∀ disk trace, fate ⟨d.capacity, disk, d.writes.tail, d.reads.tail, trace⟩ 0
          f.otaStart.toNat = fate d 1 f.otaStart.toNat := by
        intro disk trace
        unfold fate
        rw [List.drop_one]
        rfl
      rcases hcases with ⟨hseq, seq, hnext, ⟨hok, hwrite⟩ | ⟨hfirst, e, hwrite⟩⟩ | ⟨hnot, hhalt⟩
      · -- the disk has one try, and the second write is to take it away
        rw [bind_of_ok hwrite, bootActive_kept_iff htail (onDisk_store f _ _)]
        have hloads : Loads f { c with tries := 1, seq := seq }
            (({ d with reads := d.reads.tail, writes := d.writes.tail } : Device).store
              f.otaStart.toNat (Control.encode { c with tries := 1, seq := seq })) ↔
            Loads f c { d with reads := d.reads.tail } := by
          refine loads_congr rfl rfl rfl rfl rfl fun s hs => ?_
          have hlt := lt_slotBase f c.active
          exact Function.update_of_ne (by omega) _ _
        have hone : (1 : UInt8) ≠ saturatingPred 1 := by decide
        dsimp only at hnext ⊢
        rw [hloads, Device.store, hdrop]
        refine not_congr ⟨?_, ?_⟩
        · rintro ⟨⟨hstate, hload⟩, hroom, hsecond, -⟩
          exact ⟨hreadable, hstate, hload, by omega, hok, hsecond⟩
        · rintro ⟨-, hstate, hload, hroom, -, hsecond⟩
          exact ⟨⟨hstate, hload⟩, by omega, hsecond, hone⟩
      · -- the disk still has no try, which is what is reported
        rw [bind_of_ok hwrite, bootActive_kept_iff htail
          (show OnDisk f ⟨d.capacity, d.disk, d.writes.tail, d.reads.tail, d.trace⟩ c from hs)]
        refine iff_of_true ?_ ?_
        · rintro ⟨-, -, -, hne⟩
          exact hne (hspent.2.trans (by decide : 0 = saturatingPred 1))
        · rintro ⟨-, -, -, -, hok, -⟩
          rw [hfirst] at hok
          cases hok
      · refine iff_of_true (fun c' slot version triesLeft healthy d' h => ?_) ?_
        · obtain ⟨r, d₁, hwrite, -⟩ := bind_eq_ok h
          exact absurd hwrite (hhalt r d₁)
        · rintro ⟨-, -, -, hroom, hok, -⟩
          refine hnot ⟨?_, .inl hok⟩
          show c.seq.toNat + 1 < 2 ^ 64
          omega
  · have hl' : WriteFate.landed ∉ ({ d with reads := d.reads.tail } : Device).writes := hl
    have hs' : OnDisk f { d with reads := d.reads.tail } c := hs
    rw [if_neg hspent, bootActive_kept_iff hl' hs', saturatingPred_ne]
    refine not_congr ⟨?_, ?_⟩
    · rintro ⟨⟨hstate, hload⟩, hroom, hlost, hne⟩
      exact ⟨hreadable, hstate, hload, .inl ⟨hne, hroom, hlost⟩⟩
    · rintro ⟨-, hstate, hload, ⟨hne, hroom, hlost⟩ | ⟨hzero, -⟩⟩
      · exact ⟨⟨hstate, hload⟩, hroom, hlost, hne⟩
      · exact absurd ⟨hstate, hzero⟩ hspent

/-! ## Installing -/

/-- The sectors of an image land in its slot. -/
theorem touches_slot (f : Fs) (slot : Fin 2) (image : ImageBytes) (d : Device) :
    Frame (fun x _ => slotBase f slot ≤ x) d (writeImage f slot image d).2 := by
  refine Frame.bind ?_ fun base d₁ hbase => ?_
  · have hquiet : Touches (fun x _ => slotBase f slot ≤ x) (slotSector f slot) :=
      .addU64_bind fun first _ => (quiet_addU64 _ _).touches
    exact hquiet d
  · obtain ⟨heq, rfl⟩ := slotSector_ok hbase
    refine Touches.forRange (fun s _ => .addU64_bind fun pos hpos => touches_writeSector ?_) _
    omega

/-- All sectors of an image were written. -/
theorem writeImage_of_ok {slot : Fin 2} {image : ImageBytes}
    (h : writeImage f slot image d = (.ok (), d')) :
    (slotBase f slot + 7 < 2 ^ 64 ∧ ∀ k < 8, fate d k (slotBase f slot + k) = .ok) ∧
      d'.writes = d.writes.drop 8 ∧ d'.capacity = d.capacity := by
  obtain ⟨base, d₁, hbase, hloop⟩ := bind_eq_ok h
  obtain ⟨heq, rfl⟩ := slotSector_ok hbase
  have hall := forRange_ok (n := 8) (P := fun k e => (k ≠ 0 → slotBase f slot + (k - 1) < 2 ^ 64) ∧
    (∀ j < k, fate d₁ j (slotBase f slot + j) = .ok) ∧ e.writes = d₁.writes.drop k ∧
      e.capacity = d₁.capacity) ⟨by simp, by simp, rfl, rfl⟩ (fun k e e' hk he hbody => ?_) hloop
  · obtain ⟨hfits, hok, hwrites, hcap⟩ := hall
    exact ⟨⟨hfits (by decide), hok⟩, hwrites, hcap⟩
  · obtain ⟨-, hok, hwrites, hcap⟩ := he
    have hofNat : (UInt64.ofNat k).toNat = k := by
      rw [UInt64.toNat_ofNat']
      omega
    obtain ⟨pos, e₁, hpos, hwrite⟩ := bind_eq_ok hbody
    obtain ⟨hsum, rfl⟩ := addU64_ok hpos
    have hlt := pos.toNat_lt
    have hsector : pos.toNat = slotBase f slot + k := by omega
    rcases writeSector_cases pos.toNat (slice image (k * SECTOR_SIZE) SECTOR_SIZE) e with
      ⟨hdone, hnext, -⟩ | ⟨x, rfl | rfl, hfail | ⟨hfail, -⟩⟩
    · rw [hdone] at hwrite
      cases hwrite
      have hfate : fate d₁ k (slotBase f slot + k) = .ok := by
        rw [← hnext, hsector, fate, Device.nextWrite, Device.nextWrite, hwrites, hcap]
      refine ⟨fun _ => by omega, fun j hj => ?_, ?_, hcap⟩
      · obtain hj | rfl := Nat.lt_succ_iff_lt_or_eq.mp hj
        · exact hok j hj
        · exact hfate
      · show e.writes.tail = _
        rw [hwrites, List.tail_drop]
    all_goals
      rw [hfail] at hwrite
      cases hwrite

/-- They are, when the disk takes them. -/
theorem writeImage_progress {slot : Fin 2} (image : ImageBytes) (hfits : slotBase f slot + 7 < 2 ^ 64)
    (hok : ∀ k < 8, fate d k (slotBase f slot + k) = .ok) :
    ∃ d', writeImage f slot image d = (.ok (), d') := by
  obtain ⟨base, hbase, heq⟩ := slotSector_healthy (f := f) slot (by omega) d
  unfold writeImage
  rw [bind_of_ok hbase]
  refine (forRange_progress (P := fun k e => e.writes = d.writes.drop k ∧ e.capacity = d.capacity)
    ⟨rfl, rfl⟩ fun k e hk he => ?_).imp fun d' h => h.1
  have h8 : IMAGE_BYTES / SECTOR_SIZE = 8 := rfl
  have hofNat : (UInt64.ofNat k).toNat = k := by
    rw [UInt64.toNat_ofNat']
    omega
  obtain ⟨hwrites, hcap⟩ := he
  obtain ⟨pos, hpos, hsum⟩ := addU64_of_lt (a := base) (b := UInt64.ofNat k) (by omega) e
  have hsector : pos.toNat = slotBase f slot + k := by omega
  have hnext : e.nextWrite pos.toNat = .ok := by
    rw [← hok k (by omega), hsector, fate, Device.nextWrite, Device.nextWrite, hwrites, hcap]
  have hwrite : ∀ data, writeSector pos.toNat data e =
      outcome (e.nextWrite pos.toNat) pos.toNat data { e with writes := e.writes.tail } := fun _ => rfl
  refine ⟨({ e with writes := e.writes.tail } : Device).store pos.toNat
    (slice image (k * SECTOR_SIZE) SECTOR_SIZE), ?_, ?_, hcap⟩
  · rw [bind_of_ok hpos, hwrite, hnext]
    rfl
  · show e.writes.tail = _
    rw [hwrites, List.tail_drop]

/-- A failed `stage` leaves its control block as it was exactly when it did not come to write it. -/
theorem stage_kept_iff (hl : WriteFate.landed ∉ d.writes) (hs : OnDisk f d c) (slot : Fin 2)
    (version : UInt64) (healthy : Bool) :
    Kept f c d (.stage slot version healthy) ↔ ¬Lost f c d (.stage slot version healthy) := by
  unfold Kept Lost
  constructor
  · rintro h ⟨⟨hfits, hok⟩, hseq, hlost⟩
    obtain ⟨d₁, himage⟩ := writeImage_progress (buildImage version healthy) hfits hok
    obtain ⟨-, hwrites, hcap⟩ := writeImage_of_ok himage
    have hfate : fate d₁ 0 f.otaStart.toNat = .lost := by
      rw [← hlost, fate, fate, Device.nextWrite, Device.nextWrite, hcap, hwrites]
      rfl
    have hl₁ : WriteFate.landed ∉ d₁.writes := fun h => hl (List.mem_of_mem_drop (hwrites ▸ h))
    rcases writeControl_cases hl₁ f (c.staged slot version healthy) with
      ⟨-, seq, hnext, ⟨hok', -⟩ | ⟨-, e, hwrite⟩⟩ | ⟨hnot, -⟩
    · rw [hfate] at hok'
      cases hok'
    · have hrun : stage f c slot version healthy d =
          (.ok (.error e, { c.staged slot version healthy with seq := seq }),
            { d₁ with writes := d₁.writes.tail }) := by
        rw [stage, bind_of_ok (attempt_of_ok himage)]
        exact hwrite
      have hsame := congrArg Control.seq (h _ _ _ hrun).1
      have hcount : seq.toNat = c.seq.toNat + 1 := hnext
      rw [← hsame] at hcount
      exact absurd hcount (by dsimp only; omega)
    · exact hnot ⟨hseq, .inr hfate⟩
  · intro hnot e c' d' h
    obtain ⟨r, d₁, himage, h⟩ := bind_eq_ok h
    have hframe := touches_slot f slot (buildImage version healthy) d
    have hbelow := lt_slotBase f slot
    cases r with
    | error e' =>
      cases h
      have hend : (writeImage f slot (buildImage version healthy) d).2 = d' := by
        unfold attempt at himage
        split at himage <;> cases himage
        next hrun => rw [hrun]
      rw [hend] at hframe
      refine ⟨rfl, ?_⟩
      unfold OnDisk
      rw [(hframe.disk _).resolve_right (by omega)]
      exact hs
    | ok u =>
      -- the image is down, so the control block was not
      obtain ⟨hall, hwrites, hcap⟩ := writeImage_of_ok (attempt_eq_ok himage)
      have hfate : fate d₁ 0 f.otaStart.toNat = fate d 8 f.otaStart.toNat := by
        rw [fate, fate, Device.nextWrite, Device.nextWrite, hcap, hwrites]
        rfl
      have hl₁ : WriteFate.landed ∉ d₁.writes := fun h => hl (List.mem_of_mem_drop (hwrites ▸ h))
      rcases writeControl_cases hl₁ f (c.staged slot version healthy) with
        ⟨hseq, seq, -, ⟨-, hwrite⟩ | ⟨hlost, -⟩⟩ | ⟨-, hhalt⟩
      · rw [show writeControl f (c.staged slot version healthy) d₁ = _ from h] at hwrite
        cases hwrite
      · exact absurd ⟨hall, hseq, hfate.symm.trans hlost⟩ hnot
      · exact absurd h (hhalt _ _)

/-! ## Confirming -/

/-- A failed `mark_successful` never leaves its control block as it was. -/
theorem markSuccessful_kept_iff (hl : WriteFate.landed ∉ d.writes) (c : Control) :
    Kept f c d .markSuccessful ↔ ¬Lost f c d .markSuccessful := by
  have hcount : c.confirmed.seq = c.seq := by
    unfold Control.confirmed
    dsimp only
    split_ifs <;> rfl
  unfold Kept Lost markSuccessful
  rcases writeControl_cases hl f c.confirmed with
    ⟨hseq, seq, hnext, ⟨hok, hwrite⟩ | ⟨hlost, e, hwrite⟩⟩ | ⟨hnot, hhalt⟩
  · refine iff_of_true (fun e c' d' h => ?_) fun h => ?_
    · rw [hwrite] at h
      cases h
    · rw [hok] at h
      cases h.2
  · refine iff_of_false (fun h => ?_) (not_not.mpr ⟨by rwa [← hcount], hlost⟩)
    have hsame := congrArg Control.seq (h _ _ _ hwrite).1
    rw [hcount, ← hsame] at hnext
    exact absurd hnext (by dsimp only; omega)
  · refine iff_of_true (fun e c' d' h => absurd h (hhalt _ _)) fun h => hnot ⟨?_, .inr h.2⟩
    rw [hcount]
    exact h.1

end

/-- Of the writes that can fail in a call, the one that no call survives is the write of the control
block that it has changed. -/
theorem kept_iff {f : Fs} {c : Control} {d : Device} (hl : WriteFate.landed ∉ d.writes)
    (hs : OnDisk f d c) (update : Update) : Kept f c d update ↔ ¬Lost f c d update := by
  cases update with
  | boot => exact boot_kept_iff hl hs
  | stage slot version healthy => exact stage_kept_iff hl hs slot version healthy
  | markSuccessful => exact markSuccessful_kept_iff hl c

/-! ### Two slots -/

/-- The two slots of a device that loses its next write. -/
def losing : Device := { twoSlots 2 (buildImage 1 true) (buildImage 1 true) with writes := [.lost] }

theorem onDisk_losing : OnDisk smallFs losing (probation 2) := Control.decode_encode (probation 2)

theorem loads_losing : Loads smallFs (probation 2) { losing with reads := losing.reads.tail } := by
  have hworking : Working smallFs (twoSlots 2 (buildImage 1 true) (buildImage 1 true)) :=
    working_twoSlots
  have hintact : Intact smallFs (twoSlots 2 (buildImage 1 true) (buildImage 1 true)).disk
      (probation 2) 1 := intact_of_built slotImage_twoSlots_one rfl rfl
  obtain ⟨image, himage, hdigest, hversion⟩ := hintact.measure
  have hload := hworking.load 1
  rw [himage] at hload
  have hloads : Loads smallFs (probation 2) (twoSlots 2 (buildImage 1 true) (buildImage 1 true)) :=
    ⟨image, congrArg Prod.fst (attempt_eq_ok hload), hdigest, hversion⟩
  have hcongr : Loads smallFs (probation 2) { losing with reads := losing.reads.tail } ↔
      Loads smallFs (probation 2) (twoSlots 2 (buildImage 1 true) (buildImage 1 true)) :=
    loads_congr rfl rfl rfl rfl rfl fun _ _ => rfl
  exact hcongr.mpr hloads

theorem kept_losing_stage : Kept smallFs (probation 2) losing (.stage 0 2 true) :=
  (kept_iff (by decide) onDisk_losing _).mpr fun h => absurd (h.1.2 0 (by decide)) (by decide)

/-- `boot` reports that one try is left, and the disk says two. -/
theorem boot_unrecorded : WriteFate.landed ∉ losing.writes ∧ OnDisk smallFs losing (probation 2) ∧
    ¬Kept smallFs (probation 2) losing .boot := by
  have hl : WriteFate.landed ∉ losing.writes := by decide
  refine ⟨hl, onDisk_losing, fun h => (boot_kept_iff hl onDisk_losing).mp h ?_⟩
  exact ⟨⟨rfl, by decide⟩, rfl, loads_losing, .inl ⟨by decide, by decide, by decide⟩⟩

end JungeyOs.Ota
