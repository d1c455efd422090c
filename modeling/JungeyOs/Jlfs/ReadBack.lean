import JungeyOs.Jlfs.Directory

/-!
# What a write makes visible

`Fs::write` (`kernel/src/fs.rs`, lines 353–424) accepts a name by its length, stores its bytes in a
field padded with zeros, and finds it again by the bytes before the first zero.

Results:
* `Fs.read_kept`: what a call leaves of the files that were there.
* `Fs.stored_iff`: a write that returned `Ok` stored its file exactly when no byte of the name is 0.
* `written_iff`: the same over every history of a disk, with what a failed write leaves.
* `nul_name_lost`: a write that returned `Ok`, and whose file cannot be found.
-/

namespace JungeyOs.Jlfs

open JungeyOs.Dir

/-- The write of `data` as `name` that led from `fs` and `d` to `fs'` and `d'` did what it is for:
the data is read back, another write of the name does not add a file, and every other name gives
what it gave before. -/
structure Stored (name : String) (data : List UInt8) (fs fs' : Fs) (d d' : Device) : Prop where
  reads : ∀ out, data.length ≤ out.length → (fs'.read name out { d' with reads := [] }).1 =
    .ok (data.length, data ++ out.drop data.length)
  again : ∀ data' crashAfter e fs'' e', fs'.write name data' crashAfter e = (.ok fs'', e') →
    fs''.files.map FileEntry.nameStr = fs'.files.map FileEntry.nameStr
  others : ∀ n ≠ name, fs'.entry n = fs.entry n ∧ ∀ out fates,
    (fs'.read n out { d' with reads := fates }).1 = (fs.read n out { d with reads := fates }).1

/-- Every name reads on `d'` as it does on `d`. -/
def Unchanged (fs : Fs) (d d' : Device) : Prop :=
  ∀ n out fates, (fs.read n out { d' with reads := fates }).1 =
    (fs.read n out { d with reads := fates }).1

namespace Fs

variable {fs fs' : Fs} {name : String} {data : List UInt8} {crashAfter : Option UInt32}
  {d d' : Device}

/-! ## The files that were there -/

/-- A name that keeps its entry reads as before, as long as the log below the head is left alone. -/
theorem read_kept (hwf : fs.cp.WF) (hs : fs.cp.Sound) (hlog : Call.SameLog fs d d') {n : String}
    (hentry : fs'.entry n = fs.entry n) (out : List UInt8) (fates : List ReadFate) :
    (fs'.read n out { d' with reads := fates }).1 = (fs.read n out { d with reads := fates }).1 := by
  have hread : fs'.read n out = fs.read n out := by
    unfold read
    rw [hentry]
  have halike : Alike (fun x => LOG_START.toNat ≤ x ∧ x < fs.cp.logHead.toNat)
      { d' with reads := fates } { d with reads := fates } :=
    ⟨hlog.capacity, fun x hx => hlog.disk x hx.1 hx.2, rfl⟩
  rw [hread]
  apply read_congr halike
  intro e he k hk
  rcases hs.within e (entry_eq_some hwf he).2 with h | ⟨h1, h2⟩
  · omega
  · exact ⟨by omega, by omega⟩

/-- A write leaves the log below the head alone, however it ends. -/
theorem write_sameLog (hwf : fs.cp.WF) (hs : fs.cp.Sound) {r : Exit Fs}
    (h : fs.write name data crashAfter d = (r, d')) : Call.SameLog fs d d' :=
  (Call.effect (c := .write name data crashAfter) hwf hs trivial h).1

theorem write_live (hwf : fs.cp.WF) (hs : fs.cp.Sound)
    (h : fs.write name data crashAfter d = (.ok fs', d')) :
    fs'.cp.live = put FileEntry.nameStr fs.cp.live name
      (newEntry name data fs.cp.logHead (sectorsOf data)) :=
  ((Call.effect (c := .write name data crashAfter) hwf hs trivial h).2 fs' rfl).2

theorem write_follows (hwf : fs.cp.WF) (hs : fs.cp.Sound)
    (h : fs.write name data crashAfter d = (.ok fs', d')) : Call.Follows fs fs' :=
  ((Call.effect (c := .write name data crashAfter) hwf hs trivial h).2 fs' rfl).1

/-! ## The file that was written -/

/-- The sectors of the data are on the disk, below the end of the log. -/
theorem write_holds (hwf : fs.cp.WF) (hs : fs.cp.Sound)
    (h : fs.write name data crashAfter d = (.ok fs', d')) :
    fs.Accepts name data ∧ Holds d' data fs.cp.logHead.toNat (sectorsOf data).toNat := by
  have hlow : 8 ≤ fs.cp.logHead.toNat := hs.head
  obtain ⟨next, d₁, hstage, hcommit⟩ := Blk.bind_eq_ok h
  obtain ⟨-, -, hholds, -⟩ := stageWrite_ok hwf hstage
  obtain ⟨_, d₂, hwrite, hpure⟩ := Blk.bind_eq_ok hcommit
  obtain ⟨-, rfl⟩ := Blk.pure_eq_ok hpure
  obtain ⟨-, hcap, hdisk⟩ := Blk.writeSector_ok hwrite
  refine ⟨stageWrite_accepts hstage, fun s hs' => ?_⟩
  obtain ⟨hlt, hsector⟩ := hholds s hs'
  -- the checkpoint lies below the log
  have hne : fs.cp.logHead.toNat + s ≠ CP_SECTORS (1 - fs.slot) := by
    rcases cpSector_cases (1 - fs.slot) with hcp | hcp <;> omega
  rw [hcap, hdisk, Function.update_of_ne hne]
  exact ⟨hlt, hsector⟩

/-- A name without a zero byte is found again. -/
theorem entry_written (hwf : fs.cp.WF) (hs : fs.cp.Sound)
    (h : fs.write name data crashAfter d = (.ok fs', d')) (hnul : 0 ∉ asBytes name) :
    fs'.entry name = some (newEntry name data fs.cp.logHead (sectorsOf data)) := by
  obtain ⟨hacc, -⟩ := write_holds hwf hs h
  rw [entry_eq, write_live hwf hs h]
  exact lookup_put_self (nameStr_newEntry hacc.1 hnul)

/-- A name with a zero byte is not. -/
theorem entry_nul (fs : Fs) (hnul : 0 ∈ asBytes name) : fs.entry name = none := by
  rw [entry_eq]
  apply lookup_eq_none.mpr
  intro x _ hx
  exact x.nul_not_mem_nameStr (hx ▸ hnul)

/-- A file that is written again keeps its place. -/
theorem names_rewritten (hwf : fs.cp.WF) (hs : fs.cp.Sound)
    (h : fs.write name data crashAfter d = (.ok fs', d')) (hentry : fs.entry name ≠ none) :
    fs'.files.map FileEntry.nameStr = fs.files.map FileEntry.nameStr := by
  obtain ⟨hacc, -⟩ := write_holds hwf hs h
  obtain ⟨x, hx⟩ := Option.ne_none_iff_exists'.mp hentry
  rw [entry_eq] at hx
  show fs'.cp.live.map FileEntry.nameStr = fs.cp.live.map FileEntry.nameStr
  rw [write_live hwf hs h]
  apply map_put hx
  rcases newEntry_name hacc fs.cp.logHead (sectorsOf data) with hname | hnone
  · exact hname
  · rw [hnone] at hx
    cases hx

/-- A write that returned `Ok` stored its file exactly when no byte of the name is 0. -/
theorem stored_iff (hwf : fs.cp.WF) (hs : fs.cp.Sound) (hlen : data.length < 2 ^ 32)
    (h : fs.write name data crashAfter d = (.ok fs', d')) :
    Stored name data fs fs' d d' ↔ 0 ∉ asBytes name := by
  obtain ⟨hacc, hholds⟩ := write_holds hwf hs h
  have hfollows := write_follows hwf hs h
  constructor
  · intro hstored hnul
    have hread := hstored.reads data le_rfl
    unfold read at hread
    rw [entry_nul fs' hnul] at hread
    cases hread
  · intro hnul
    have hentry := entry_written hwf hs h hnul
    refine ⟨fun out hout => ?_, fun data' crash e fs'' e' h' => ?_, fun n hn => ?_⟩
    · have hsize : (UInt32.ofNat data.length).toNat = data.length := by
        rw [UInt32.toNat_ofNat', Nat.mod_eq_of_lt hlen]
      have hlimit := fs.logLimit.toNat_lt
      have hread := read_ok (d := { d' with reads := [] }) rfl hentry hsize hlen rfl hholds
        (hacc.2.trans hlimit.le) hout
      exact congrArg Prod.fst hread
    · exact names_rewritten hfollows.wf hfollows.sound h' (by rw [hentry]; simp)
    · have hkept : fs'.entry n = fs.entry n := by
        rw [entry_eq, entry_eq, write_live hwf hs h]
        exact lookup_put_ne (by rw [nameStr_newEntry hacc.1 hnul]; exact hn.symm) hn.symm
      exact ⟨hkept, read_kept hwf hs (write_sameLog hwf hs h) hkept⟩

end Fs

/-! ## Every history -/

theorem mounted_sound {w : World} (h : Run.Reachable World.step Run.always World.Fresh w) {fs : Fs}
    (hm : w.mounted = some fs) : fs.cp.WF ∧ fs.cp.Sound := by
  have hinv : Inv True w := h.invariant (Inv True) (fun w hw => ⟨_, _, layout_fresh hw⟩)
    fun w a w' hw _ hs => inv_step hw (fun _ _ _ _ => trivial) hs
  obtain ⟨slot, cp, hl⟩ := hinv
  have hcp : fs.cp = cp := by rw [hl.mounted fs hm]; rfl
  exact ⟨hcp ▸ hl.wf, hcp ▸ hl.sound⟩

/-- In every history of a disk: a write that returned `Ok` stored its file exactly when no byte of
the name is 0, and a write that returned `Err` leaves every name as it was. -/
theorem written_iff {w : World} (h : Run.Reachable World.step Run.always World.Fresh w) {fs : Fs}
    (hm : w.mounted = some fs) {name : String} {data : List UInt8} (hlen : data.length < 2 ^ 32)
    (crashAfter : Option UInt32) (writes : List WriteFate) :
    (∀ fs' d', fs.write name data crashAfter (w.device writes) = (.ok fs', d') →
      (Stored name data fs fs' (w.device writes) d' ↔ 0 ∉ asBytes name)) ∧
    ∀ msg d', fs.write name data crashAfter (w.device writes) = (.err msg, d') →
      Unchanged fs (w.device writes) d' := by
  obtain ⟨hwf, hs⟩ := mounted_sound h hm
  constructor
  · intro fs' d' hwrite
    exact Fs.stored_iff hwf hs hlen hwrite
  · intro msg d' hwrite n
    exact Fs.read_kept hwf hs (Fs.write_sameLog hwf hs hwrite) rfl

/-! ## A small disk -/

/-- A first file on the small disk. -/
theorem write_first (name : String) (data : List UInt8) (hname : name.utf8ByteSize ≤ MAX_NAME)
    (hdata : (Fs.sectorsOf data).toNat = 1) :
    ∃ w fs fs' d', Run.Reachable World.step Run.always World.Fresh w ∧ w.mounted = some fs ∧
      fs.write name data none (w.device [.ok]) = (.ok fs', d') := by
  have halways : Run.always smallDisk Act.mount := trivial
  obtain ⟨-, hreach⟩ := mount_fresh fresh_smallDisk halways
  generalize hfs : adopt (smallDisk.disk SB_SECTOR) 0 Checkpoint.new = fs at hreach
  have hcp : fs.cp = Checkpoint.new := by rw [← hfs]; rfl
  have hlimit : fs.logLimit.toNat = 1439 := by rw [← hfs]; exact logLimit_smallDisk _ _
  have hhead : fs.cp.logHead.toNat = 8 := by rw [hcp]; rfl
  have hcapacity : (World.device { smallDisk with mounted := some fs } [.ok]).capacity = 20000 :=
    capacity_smallDisk
  have hnew : fs.find name = none := by
    rw [Fs.find, Fs.files, hcp]
    rfl
  have hacc : fs.Accepts name data := ⟨hname, by omega⟩
  have hfates : (World.device { smallDisk with mounted := some fs } [.ok]).writes =
      List.replicate (Fs.sectorsOf data).toNat .ok := by rw [hdata]; rfl
  obtain ⟨fs', d', hwrite, -⟩ := Fs.write_progress (hcp ▸ Checkpoint.wf_new) hacc hnew
    (by rw [hcp]; decide) (by rw [hcp]; decide) (by omega) (by omega) hfates
  exact ⟨_, fs, fs', d', hreach, rfl, hwrite⟩

theorem written_iff_notes : ∃ (w : World) (fs fs' : Fs) (d' : Device),
    fs.write "notes" [1, 2, 3] none (w.device [.ok]) = (.ok fs', d') ∧
      Stored "notes" [1, 2, 3] fs fs' (w.device [.ok]) d' := by
  obtain ⟨w, fs, fs', d', hreach, hm, hwrite⟩ :=
    write_first "notes" [1, 2, 3] (by decide) rfl
  exact ⟨w, fs, fs', d', hwrite,
    ((written_iff hreach hm (by decide) none [.ok]).1 fs' d' hwrite).mpr (by decide)⟩

/-- The name has a zero byte in the middle. -/
theorem nul_name_lost : ∃ (w : World) (fs fs' : Fs) (d' : Device),
    Run.Reachable World.step Run.always World.Fresh w ∧ w.mounted = some fs ∧
      fs.write "no\x00tes" [1, 2, 3] none (w.device [.ok]) = (.ok fs', d') ∧
      (fs'.read "no\x00tes" [0, 0, 0] { d' with reads := [] }).1 = .err "no such file" ∧
      ¬Stored "no\x00tes" [1, 2, 3] fs fs' (w.device [.ok]) d' := by
  obtain ⟨w, fs, fs', d', hreach, hm, hwrite⟩ :=
    write_first "no\x00tes" [1, 2, 3] (by decide) rfl
  obtain ⟨hwf, hs⟩ := mounted_sound hreach hm
  have hnul : 0 ∈ asBytes "no\x00tes" := by decide
  refine ⟨w, fs, fs', d', hreach, hm, hwrite, ?_, fun hstored => ?_⟩
  · unfold Fs.read
    rw [Fs.entry_nul fs' hnul]
    rfl
  · exact (Fs.stored_iff hwf hs (by decide) hwrite).mp hstored hnul

end JungeyOs.Jlfs
