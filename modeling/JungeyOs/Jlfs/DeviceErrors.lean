import Mathlib.Data.UInt
import JungeyOs.Jlfs.World

/-!
# JLFS over a driver that answers late

`blk::round_trip` gives up on a slow driver, which may still execute the queued
request: `write_sector` returns `Err` and the sector lands all the same. When that
happens to a checkpoint, the root on the disk is ahead of the mounted one, and
the log head in memory points at sectors that the newer root already uses.

Results:
* `shows_whole_files`: as long as no write puts other bytes below the log head of
  a newer root, every mount shows for every name the data of one write call.
* `mixture_shown`: otherwise a mount can show half of one file and half of another.
-/

namespace JungeyOs.Jlfs

/-! ## What a mount shows -/

/-- The next mount shows for every name the complete data of one `Fs::write` call
made for that name. -/
def World.ShowsWhole (w : World) : Prop :=
  ∃ m d, mount (w.device []) = (.ok m, d) ∧ ∀ name, m.entry name ≠ none →
    ∃ data, (name, data) ∈ w.calls ∧ ∀ out : List UInt8, data.length ≤ out.length →
      (m.read name out (w.device [])).1 = .ok (data.length, data ++ out.drop data.length)

/-- What the step must meet: the name has no NUL byte and the length fits its
field, and the write changes no sector below the log head of a checkpoint that is
newer than the mounted one. -/
def Careful (w : World) : Act → Prop
  | .call (.write name data _) _ => ∀ fs, w.mounted = some fs →
      0 ∉ asBytes name ∧ data.length < 2 ^ 32 ∧
      ∀ slot c, Checkpoint.decode (w.disk (CP_SECTORS slot)) = some c → fs.cp.seq < c.seq →
        ∀ x v, fs.Stores name data x v → x < c.logHead.toNat → w.disk x = v
  | _ => True

/-! ## Every entry has its data -/

/-- The extent of `e` holds the data of a `write` call for its name. -/
def World.Stored (w : World) (e : FileEntry) : Prop :=
  ∃ data, (e.nameStr, data) ∈ w.calls ∧ data.length < 2 ^ 32 ∧ e.size.toNat = data.length ∧
    e.sectors = Fs.sectorsOf data ∧
    Fs.Holds (w.device []) data e.start.toNat (Fs.sectorsOf data).toNat

/-- Every entry that a mount can show, or that an undo can put back, has its
data. -/
structure Backed (w : World) (slot : Fin 2) (cp : Checkpoint) : Prop where
  live : ∀ e ∈ cp.live, w.Stored e
  ahead : ∀ c, Checkpoint.decode (w.disk (CP_SECTORS (1 - slot))) = some c → c.Ahead cp →
    ∀ e ∈ c.live, w.Stored e
  saved : ∀ p ∈ w.saved, w.Stored p.2

section

variable {w w' : World} {slot : Fin 2} {cp : Checkpoint}

theorem World.Stored.mono {e : FileEntry} (h : w.Stored e) (hcap : w'.capacity = w.capacity)
    (hcalls : ∀ p ∈ w.calls, p ∈ w'.calls) {head : ℕ} (he : e.Within head)
    (hdisk : ∀ x, LOG_START.toNat ≤ x → x < head → w'.disk x = w.disk x) : w'.Stored e := by
  obtain ⟨data, hmem, hlen, hsize, hsectors, hholds⟩ := h
  refine ⟨data, hcalls _ hmem, hlen, hsize, hsectors, fun s hs => ?_⟩
  obtain ⟨hlt, heq⟩ := hholds s hs
  have hstart := he.start_le (k := s) (hsectors ▸ hs)
  have hlog : LOG_START.toNat ≤ e.start.toNat := by
    rcases he with h0 | ⟨h8, -⟩
    · rw [hsectors] at h0
      omega
    · exact h8
  exact ⟨hlt.trans_eq hcap.symm, (hdisk _ (by omega) hstart).trans heq⟩

/-- An older root is not ahead of a newer one. -/
theorem Checkpoint.Ahead.not_ahead {c : Checkpoint} (h : c.Ahead cp) : ¬cp.Ahead c := by
  intro h'
  have h1 := h.seq
  have h2 := h'.seq
  omega

theorem Checkpoint.Ahead.seq_lt {c : Checkpoint} (h : c.Ahead cp) : cp.seq < c.seq :=
  UInt64.lt_iff_toNat_lt.mpr (by rw [h.seq]; omega)

/-- Every root that follows the live one has its data. -/
theorem stored_next {amb : Prop} (hl : Layout amb w slot cp) (hb : Backed w slot cp) {fs : Fs}
    (hm : w.mounted = some fs) {c : Call} (hc : c.Allowed w)
    (hname : ∀ name data crash, c = .write name data crash →
      0 ∉ asBytes name ∧ data.length < 2 ^ 32)
    {d1 : Device} {writes : List WriteFate} {next : Checkpoint}
    (hst : c.stage fs (w.device writes) = (.ok (some next), d1)) (hcap : w'.capacity = w.capacity)
    (hcalls : w'.calls = c.logged ++ w.calls)
    (hdisk : ∀ x, LOG_START.toNat ≤ x → w'.disk x = d1.disk x) :
    ∀ e ∈ next.live, w'.Stored e := by
  have hfs := hl.mounted fs hm
  have hcp : fs.cp = cp := by rw [hfs]; rfl
  have hwf : fs.cp.WF := hcp ▸ hl.wf
  have hframe := Call.touches_stage c fs (w.device writes)
  rw [hst] at hframe
  have hsub : ∀ p ∈ w.calls, p ∈ w'.calls := fun p hp => by
    rw [hcalls]
    exact List.mem_append_right _ hp
  have hold : ∀ x, LOG_START.toNat ≤ x → x < cp.logHead.toNat → w'.disk x = w.disk x :=
    fun x h1 h2 => (hdisk x h1).trans (Call.frame_below hframe (hcp ▸ h2))
  intro e he
  obtain ⟨hnext, -⟩ := Call.stage_ok hwf hst
  rcases hnext.live e he with hlive | hnew
  · rw [hcp] at hlive
    exact (hb.live e hlive).mono hcap hsub (hl.sound.within e hlive) hold
  · cases c with
    | write name data crash =>
      obtain ⟨hnul, hlen⟩ := hname name data crash rfl
      obtain ⟨next', d2, hstage, hpure⟩ := Blk.bind_eq_ok hst
      cases hpure
      obtain ⟨-, -, hholds, hsize⟩ := Fs.stageWrite_ok hwf hstage
      rw [Option.some.inj hnew]
      refine ⟨data, ?_, hlen, ?_, rfl, fun s hs => ?_⟩
      · rw [Fs.nameStr_newEntry hsize hnul, hcalls]
        exact List.mem_append_left _ List.mem_cons_self
      · exact UInt32.toNat_ofNat_of_lt' hlen
      · obtain ⟨hlt, heq⟩ := hholds s hs
        have hhead := hl.sound.head
        refine ⟨?_, (hdisk _ ?_).trans heq⟩
        · exact hlt.trans_eq (hframe.capacity.trans hcap.symm)
        · rw [← hcp] at hhead
          exact hhead.trans (Nat.le_add_right _ _)
    | setEntry name entry =>
      obtain rfl : entry = some e := hnew.symm
      exact (hb.saved (name, e) hc).mono hcap hsub (hl.saved (name, e) hc).2 hold

/-- A careful call leaves every entry with its data. -/
theorem backed_call (hl : Layout True w slot cp) (hb : Backed w slot cp) {fs : Fs}
    (hm : w.mounted = some fs) {c : Call} (hc : c.Allowed w) {writes : List WriteFate}
    (hok : Careful w (.call c writes)) {r : Exit Fs} {d' : Device}
    (hout : c.Outcome fs (w.device writes) r d') :
    ∃ slot' cp', Layout True (w.after c fs r d') slot' cp' ∧
      Backed (w.after c fs r d') slot' cp' := by
  have hfs := hl.mounted fs hm
  have hcp : fs.cp = cp := by rw [hfs]; rfl
  have hslot : fs.slot = slot := by rw [hfs]; rfl
  have hsub : ∀ p ∈ w.calls, p ∈ (w.after c fs r d').calls := fun p hp =>
    List.mem_append_right _ hp
  have hname : ∀ name data crash, c = .write name data crash →
      0 ∉ asBytes name ∧ data.length < 2 ^ 32 := by
    rintro name data crash rfl
    obtain ⟨hnul, hlen, -⟩ := hok fs hm
    exact ⟨hnul, hlen⟩
  rcases layout_call hl hm hc rfl (fun _ => trivial) hout with
    ⟨hl', hframe, -⟩ | ⟨d1, next, hst, hahead, hframe, hdisk, -, hcase⟩
  · -- no checkpoint landed: what the call stored is past the head of the live root,
    -- and nothing new below that of a newer one
    have hold : ∀ x, LOG_START.toNat ≤ x → x < cp.logHead.toNat →
        (w.after c fs r d').disk x = w.disk x :=
      fun x _ hx => Call.frame_below hframe (hcp ▸ hx)
    refine ⟨slot, cp, hl', fun e he => ?_, fun c' hc' hahead e he => ?_, fun p hp => ?_⟩
    · exact (hb.live e he).mono rfl hsub (hl.sound.within e he) hold
    · have hother : (w.after c fs r d').disk (CP_SECTORS (1 - slot)) =
          w.disk (CP_SECTORS (1 - slot)) := by
        refine Call.frame_below hframe ?_
        have hhead : 8 ≤ cp.logHead.toNat := hl.sound.head
        rw [hcp]
        rcases cpSector_cases (1 - slot) with h | h <;> omega
      rw [hother] at hc'
      refine (hb.ahead c' hc' hahead e he).mono rfl hsub (hahead.sound.within e he) ?_
      intro x _ hx
      rcases hframe.disk x with heq | hstores
      · exact heq
      · cases c with
        | write name data crash =>
          obtain ⟨-, -, hsame⟩ := hok fs hm
          exact (hsame _ c' hc' (hcp ▸ hahead.seq_lt) x _ hstores hx).symm
        | setEntry name entry => exact hstores.elim
    · exact (hb.saved p hp).mono rfl hsub (hl.saved p hp).2 hold
  · -- the next root landed, with its data in place
    have hlog : ∀ x, LOG_START.toNat ≤ x → (w.after c fs r d').disk x = d1.disk x := by
      intro x hx
      have h8 : 8 ≤ x := hx
      refine (congrFun hdisk x).trans (Function.update_of_ne ?_ _ _)
      rcases cpSector_cases (1 - fs.slot) with h | h <;> omega
    have hnext : ∀ e ∈ next.live, (w.after c fs r d').Stored e :=
      stored_next hl hb hm hc hname hst rfl rfl hlog
    have hold : ∀ x, LOG_START.toNat ≤ x → x < cp.logHead.toNat →
        (w.after c fs r d').disk x = w.disk x :=
      fun x h1 h2 => (hlog x h1).trans (Call.frame_below hframe (hcp ▸ h2))
    have hsaved : ∀ p ∈ w.saved, (w.after c fs r d').Stored p.2 := fun p hp =>
      (hb.saved p hp).mono rfl hsub (hl.saved p hp).2 hold
    rcases hcase with ⟨hl', -⟩ | ⟨-, hl', -⟩
    · refine ⟨1 - slot, next, hl', hnext, fun c' hc' hahead' => ?_, hsaved⟩
      -- the other slot holds the root that was live before
      have hprev : (w.after c fs r d').disk (CP_SECTORS (1 - (1 - slot))) =
          w.disk (CP_SECTORS slot) := by
        rw [Layout.one_sub_one_sub]
        have hhead : 8 ≤ cp.logHead.toNat := hl.sound.head
        refine (congrFun hdisk _).trans ((Function.update_of_ne ?_ _ _).trans
          (Call.frame_below hframe ?_))
        · rw [hslot]
          exact cpSector_ne (Layout.one_sub_ne slot)
        · rw [hcp]
          rcases cpSector_cases slot with h | h <;> omega
      rw [hprev, hl.live] at hc'
      cases hc'
      exact absurd hahead' hahead.not_ahead
    · refine ⟨slot, cp, hl', fun e he => ?_, fun c' hc' _ => ?_, hsaved⟩
      · exact (hb.live e he).mono rfl hsub (hl.sound.within e he) hold
      · have hlanded : (w.after c fs r d').disk (CP_SECTORS (1 - slot)) = next.encode := by
          refine (congrFun hdisk _).trans ?_
          rw [hslot, Function.update_self]
        obtain ⟨hn, -⟩ := Call.stage_ok (hcp ▸ hl.wf) hst
        rw [hlanded, Checkpoint.decode_encode hn.wf] at hc'
        cases hc'
        exact hnext

/-- Every careful step leaves every entry with its data. -/
theorem backed_step {a : Act} (hl : Layout True w slot cp) (hb : Backed w slot cp)
    (hok : Careful w a) (hs : w.step a = some w') :
    ∃ slot' cp', Layout True w' slot' cp' ∧ Backed w' slot' cp' := by
  cases a with
  | call c writes =>
    obtain ⟨fs, hm, hs⟩ := Option.bind_eq_some_iff.mp hs
    split_ifs at hs with hc
    cases hs
    exact backed_call hl hb hm hc hok (c.outcome fs _)
  | entry name =>
    obtain ⟨fs, hm, hs⟩ := Option.bind_eq_some_iff.mp hs
    obtain ⟨e, he, rfl⟩ := Option.map_eq_some_iff.mp hs
    have hcp : fs.cp = cp := by rw [hl.mounted fs hm]; rfl
    obtain ⟨hname, hmem⟩ := Fs.entry_eq_some (hcp ▸ hl.wf) he
    rw [hcp] at hmem
    refine ⟨slot, cp, { hl with saved := fun p hp => ?_ }, hb.live, hb.ahead, fun p hp => ?_⟩
    · rcases List.mem_cons.mp hp with rfl | hp
      · exact ⟨hname, hl.sound.within _ hmem⟩
      · exact hl.saved p hp
    · rcases List.mem_cons.mp hp with rfl | hp
      · exact hb.live _ hmem
      · exact hb.saved p hp
  | mount =>
    obtain ⟨fs, d, hmount, hl', hnewest, hcase⟩ := hl.mount_ok
    simp only [World.step, hmount] at hs
    cases hs
    refine ⟨fs.slot, fs.cp, hl', fun e he => ?_, fun c hc hahead => ?_, hb.saved⟩
    · rcases hcase with ⟨hsame, -⟩ | ⟨-, hahead, hother⟩
      · exact hb.live e (hsame ▸ he)
      · exact hb.ahead fs.cp (hother ▸ hl'.live) hahead e he
    · exact absurd (hnewest c hc) (UInt64.not_lt.mpr (UInt64.le_of_lt hahead.seq_lt))
  | powerCut =>
    cases hs
    exact ⟨slot, cp, { hl with mounted := fun fs hfs => by cases hfs }, hb.live, hb.ahead, hb.saved⟩

theorem backed_reachable (h : Run.Reachable World.step Careful World.Fresh w) :
    ∃ slot cp, Layout True w slot cp ∧ Backed w slot cp := by
  refine h.invariant (fun w => ∃ slot cp, Layout True w slot cp ∧ Backed w slot cp)
    (fun w hw => ?_) fun w a w' ⟨slot, cp, hl, hb⟩ hok hs => backed_step hl hb hok hs
  have hfresh : Layout False w 0 Checkpoint.new := layout_fresh hw
  refine ⟨0, Checkpoint.new, layout_fresh hw, fun e he => ?_, fun c hc hahead e _ => ?_, ?_⟩
  · rw [Checkpoint.live_new] at he
    cases he
  · rcases hfresh.other c hc with hlt | ⟨hf, -⟩
    · exact absurd hlt (UInt64.not_lt.mpr (UInt64.le_of_lt hahead.seq_lt))
    · exact hf.elim
  · rw [hw.2.2.1]
    intro p hp
    cases hp

/-- Device errors of both kinds, undos, crashes and remounts in any order: as long
as no write puts other bytes below the log head of a newer root, every mount shows
for every name the complete data of one write call for that name. -/
theorem shows_whole_files (h : Run.Reachable World.step Careful World.Fresh w) :
    w.ShowsWhole := by
  obtain ⟨slot, cp, hl, hb⟩ := backed_reachable h
  obtain ⟨m, d, hmount, hl', hnewest, hcase⟩ := hl.mount_ok
  refine ⟨m, d, hmount, fun name hname => ?_⟩
  obtain ⟨e, he⟩ := Option.ne_none_iff_exists'.mp hname
  obtain ⟨hstr, hmem⟩ := Fs.entry_eq_some hl'.wf he
  have hstored : w.Stored e := by
    rcases hcase with ⟨hsame, -⟩ | ⟨-, hahead, hother⟩
    · exact hb.live e (hsame ▸ hmem)
    · exact hb.ahead m.cp (hother ▸ hl'.live) hahead e hmem
  obtain ⟨data, hcall, hlen, hsize, hsectors, hholds⟩ := hstored
  refine ⟨data, hstr ▸ hcall, fun out hout => ?_⟩
  have hadd : e.start.toNat + (Fs.sectorsOf data).toNat ≤ 2 ^ 64 := by
    rcases hl'.sound.within e hmem with h0 | ⟨-, hhead⟩
    · have := e.start.toNat_lt
      rw [hsectors] at h0
      omega
    · have := m.cp.logHead.toNat_lt
      rw [hsectors] at hhead
      omega
  rw [Fs.read_ok rfl he hsize hlen hsectors hholds hadd hout]

end

/-! ## A history that shows a mixture

A fresh disk is mounted. The checkpoint of a first write of `"a"` lands, but the
driver answers too late. A second write of `"a"` starts at the same log head, and
the power goes after its first data sector. -/

def firstData : List UInt8 := List.replicate 513 1

def secondData : List UInt8 := List.replicate 513 2

/-- One sector of the second data and one of the first. -/
def mixedData : List UInt8 := List.replicate 512 2 ++ [1]

theorem sectorsOf_firstData : Fs.sectorsOf firstData = 2 := by
  rw [Fs.sectorsOf, firstData, List.length_replicate]
  rfl

theorem sectorsOf_secondData : Fs.sectorsOf secondData = 2 := by
  rw [Fs.sectorsOf, secondData, List.length_replicate]
  rfl

theorem length_mixedData : mixedData.length = 513 := by
  rw [mixedData, List.length_append, List.length_replicate]
  rfl

theorem sectorsOf_mixedData : Fs.sectorsOf mixedData = 2 := by
  rw [Fs.sectorsOf, length_mixedData]
  rfl

/-- The mixture agrees with the second data on sector 0 and with the first data
on sector 1. -/
theorem dataSector_mixedData :
    Fs.dataSector mixedData 0 = Fs.dataSector secondData 0 ∧
      Fs.dataSector mixedData 1 = Fs.dataSector firstData 1 := by
  have hs : SECTOR_SIZE = 512 := rfl
  constructor
  · ext k hk
    simp only [Fs.dataSector, Vector.getElem_ofFn]
    rw [mixedData, secondData, List.getElem?_append_left (by rw [List.length_replicate]; omega),
      List.getElem?_replicate, List.getElem?_replicate, if_pos (by omega), if_pos (by omega)]
  · ext k hk
    simp only [Fs.dataSector, Vector.getElem_ofFn]
    rw [mixedData, firstData, List.getElem?_append_right (by rw [List.length_replicate]; omega),
      List.length_replicate, List.getElem?_replicate, hs]
    rcases Nat.eq_zero_or_pos k with rfl | hpos
    · rfl
    · rw [if_neg (by omega), List.getElem?_eq_none (by simp; omega)]

/-- `smallDisk` once it is mounted. -/
def smallMounted : World :=
  { smallDisk with mounted := some (adopt (smallDisk.disk SB_SECTOR) 0 Checkpoint.new) }

theorem layout_smallMounted (amb : Prop) : Layout amb smallMounted 0 Checkpoint.new := by
  refine { (layout_fresh fresh_smallDisk : Layout amb _ _ _) with mounted := fun fs hfs => ?_ }
  cases hfs
  rfl

/-- The first write: its checkpoint lands and the call returns `Err`. The machine
goes on with the old root. -/
theorem late_checkpoint : ∃ w next, w.mounted = smallMounted.mounted ∧
    smallMounted.step (.call (.write "a" firstData none) [.ok, .ok, .landed]) = some w ∧
    w.calls = [("a", firstData)] ∧ Layout True w 0 Checkpoint.new ∧
    w.capacity = 20000 ∧ w.disk SB_SECTOR = smallDisk.disk SB_SECTOR ∧
    Checkpoint.decode (w.disk (CP_SECTORS 1)) = some next ∧ next.Ahead Checkpoint.new ∧
    next.count = 1 ∧ next.files[0]? = some (Fs.newEntry "a" firstData LOG_START 2) ∧
    w.disk 9 = Fs.dataSector firstData 1 := by
  have hl := layout_smallMounted True
  generalize hfs : adopt (smallDisk.disk SB_SECTOR) 0 Checkpoint.new = fs
  have hm : smallMounted.mounted = some fs := congrArg some hfs
  have hcp : fs.cp = Checkpoint.new := by rw [← hfs]; rfl
  have hslot : fs.slot = 0 := by rw [← hfs]; rfl
  have hhead : fs.cp.logHead.toNat = 8 := by rw [hcp]; rfl
  have hlimit : fs.logLimit.toNat = 1439 := by rw [← hfs]; exact logLimit_smallDisk _ _
  have hn : (Fs.sectorsOf firstData).toNat = 2 := by rw [sectorsOf_firstData]; rfl
  have hacc : fs.Accepts "a" firstData := ⟨by decide, by omega⟩
  have hnew : fs.find "a" = none := by
    rw [Fs.find, Fs.files, hcp]
    rfl
  have hcount : fs.cp.count = 0 := by rw [hcp]; rfl
  obtain ⟨next, d1, hst, hleft, hcap, hcountNext, hfiles⟩ := Fs.stageWrite_progress [.landed]
    (d := smallMounted.device [.ok, .ok, .landed]) hacc hnew
    (by rw [hcount]; decide) (by rw [hcp]; decide)
    (by rw [hlimit]; show 1439 ≤ smallDisk.capacity; rw [capacity_smallDisk]; decide)
    (show _ = List.replicate _ _ ++ [WriteFate.landed] by rw [hn]; rfl)
  have hwf : fs.cp.WF := hcp ▸ hl.wf
  obtain ⟨hnext, hheadNext, hholds, -⟩ := Fs.stageWrite_ok hwf hst
  have hahead : next.Ahead Checkpoint.new :=
    hl.ahead_of_next (c := .write "a" firstData none) hcp trivial hnext hheadNext
  have hstage : (Call.write "a" firstData none).stage fs (smallMounted.device [.ok, .ok, .landed]) =
      (.ok (some next), d1) := Blk.bind_of_ok hst
  have hframe := Call.touches_stage (.write "a" firstData none) fs
    (smallMounted.device [.ok, .ok, .landed])
  rw [hstage] at hframe
  have hsector : CP_SECTORS (1 - fs.slot) < d1.capacity := by
    rw [hcap]
    show _ < smallDisk.capacity
    rw [capacity_smallDisk, hslot]
    decide
  obtain ⟨d2, hrun, hdisk⟩ : ∃ d2, (Call.write "a" firstData none).run fs
      (smallMounted.device [.ok, .ok, .landed]) = (.err "block driver did not answer", d2) ∧
      d2.disk = Function.update d1.disk 2 next.encode := by
    refine ⟨{ d1 with writes := [] }.store (CP_SECTORS (1 - fs.slot)) next.encode, ?_, by
      rw [hslot]; rfl⟩
    rw [Call.run_eq, Blk.bind_of_ok hstage]
    exact Blk.bind_of_err (Blk.writeSector_of_fate next.encode hleft hsector)
  have hlow : ∀ x, x < 8 → x ≠ 2 → d2.disk x = smallMounted.disk x := by
    intro x hx hne
    rw [hdisk, Function.update_of_ne hne]
    exact Call.frame_below hframe (by omega)
  have hslotB : d2.disk 2 = next.encode := by rw [hdisk, Function.update_self]
  refine ⟨smallMounted.after (.write "a" firstData none) fs (.err "block driver did not answer") d2,
    next, hm.symm, ?_, ?_, ?_, capacity_smallDisk, hlow SB_SECTOR (by decide) (by decide), ?_,
    hahead, by rw [hcountNext, hcount], ?_, ?_⟩
  · simp only [World.step, hm, Option.bind_some, hrun]
    rfl
  · exact congrArg _ calls_smallDisk
  · exact hl.of_ambiguous trivial hnext.wf hahead rfl rfl hslotB (fun x hx hne => hlow x hx hne)
      fun fs' hfs' => hm.trans hfs'
  · exact (congrArg Checkpoint.decode hslotB).trans (Checkpoint.decode_encode hnext.wf)
  · have h0 : 0 < MAX_FILES := by decide
    rw [hfiles, hcount, sectorsOf_firstData, hcp, Vector.getElem?_eq_getElem h0,
      Vector.getElem_setIfInBounds_self h0]
    rfl
  · obtain ⟨-, hdata⟩ := hholds 1 (by omega)
    rw [hhead] at hdata
    exact (congrFun hdisk 9).trans ((Function.update_of_ne (by decide) _ _).trans hdata)

/-- After the first write the disk still shows a whole file. -/
theorem shows_whole_files_late :
    ∃ w, smallMounted.step (.call (.write "a" firstData none) [.ok, .ok, .landed]) = some w ∧
      w.ShowsWhole := by
  obtain ⟨w, next, -, hstep, -⟩ := late_checkpoint
  obtain ⟨-, hreach⟩ := @mount_fresh _ fresh_smallDisk Careful trivial
  have hcareful : Careful smallMounted (.call (.write "a" firstData none) [.ok, .ok, .landed]) := by
    intro fs hm
    refine ⟨by decide, by rw [firstData, List.length_replicate]; decide, fun slot c hc hlt => ?_⟩
    -- neither slot of the fresh disk holds a newer root
    have hl := layout_smallMounted False
    have hcp : fs.cp = Checkpoint.new := by rw [hl.mounted fs hm]; rfl
    have hslot : slot = 0 ∨ slot = 1 := by omega
    rcases hslot with rfl | rfl
    · rw [hl.live] at hc
      cases hc
      exact absurd (hcp ▸ hlt) (UInt64.lt_irrefl _)
    · rcases hl.other c hc with hold | hf
      · exact absurd (UInt64.lt_trans hold (hcp ▸ hlt)) (UInt64.lt_irrefl _)
      · exact hf.1.elim
  exact ⟨w, hstep, shows_whole_files (hreach.next hcareful hstep)⟩

/-- The second write: the power goes after its first data sector. -/
theorem cut_second_write {w : World} {fs : Fs} (hm : w.mounted = some fs)
    (hhead : fs.cp.logHead = LOG_START) (hlimit : fs.logLimit.toNat = 1439)
    (hcap : w.capacity = 20000) :
    ∃ w', w.step (.call (.write "a" secondData none) [.ok, .cutBefore]) = some w' ∧
      w'.mounted = none ∧ w'.capacity = 20000 ∧ w'.calls = ("a", secondData) :: w.calls ∧
      w'.disk = Function.update w.disk 8 (Fs.dataSector secondData 0) := by
  have h8 : LOG_START.toNat = 8 := rfl
  have hn : (Fs.sectorsOf secondData).toNat = 2 := by rw [sectorsOf_secondData]; rfl
  obtain ⟨d', hloop, hdisk⟩ : ∃ d', Blk.forRange 2 (Fs.writeDataSector LOG_START secondData none)
      (w.device [.ok, .cutBefore]) = (.halted .powerOff, d') ∧
      d'.disk = Function.update w.disk 8 (Fs.dataSector secondData 0) := by
    have hfirst : Fs.writeDataSector LOG_START secondData none 0 (w.device [.ok, .cutBefore]) =
        (.ok (), (w.device [.cutBefore]).store 8 (Fs.dataSector secondData 0)) := by
      rw [Fs.writeDataSector_eq (by decide) (by decide),
        Blk.writeSector_of_fate _ (show _ = WriteFate.ok :: [.cutBefore] from rfl)
          (by show _ < w.capacity; rw [hcap]; decide)]
      rfl
    refine ⟨(w.device []).store 8 (Fs.dataSector secondData 0), ?_, rfl⟩
    have hone : Blk.forRange 1 (Fs.writeDataSector LOG_START secondData none)
        (w.device [.ok, .cutBefore]) =
        (.ok (), (w.device [.cutBefore]).store 8 (Fs.dataSector secondData 0)) := hfirst
    refine (Blk.bind_of_ok hone).trans ?_
    rw [Fs.writeDataSector_eq (by decide) (by decide),
      Blk.writeSector_of_fate _ (show _ = WriteFate.cutBefore :: [] from rfl)
        (by show _ < w.capacity; rw [hcap]; decide)]
    rfl
  have hrun : (Call.write "a" secondData none).run fs (w.device [.ok, .cutBefore]) =
      (.halted .powerOff, d') := by
    have hadd : fs.cp.logHead.toNat + (Fs.sectorsOf secondData).toUInt64.toNat < 2 ^ 64 := by
      rw [UInt32.toNat_toUInt64, hhead]
      omega
    obtain ⟨stop, hstop, hstopEq⟩ := Blk.addU64_of_lt hadd (w.device [.ok, .cutBefore])
    rw [UInt32.toNat_toUInt64, hhead] at hstopEq
    refine Blk.bind_of_halted ?_
    unfold Fs.stageWrite
    rw [if_neg (by decide)]
    rw [Blk.bind_of_ok hstop,
      if_neg (UInt64.not_lt.mpr (UInt64.le_iff_toNat_le.mpr (by omega))), hn, hhead,
      Blk.bind_of_halted hloop]
  refine ⟨w.after (.write "a" secondData none) fs (.halted .powerOff) d', ?_, rfl, hcap, rfl, hdisk⟩
  simp only [World.step, hm, Option.bind_some, hrun]
  rfl

/-- Half of one write and half of another: after a checkpoint write that landed
although it returned `Err`, and a second write that was cut, the next mount shows
a file that no call wrote. -/
theorem mixture_shown :
    ∃ w, Run.Reachable World.step Run.always World.Fresh w ∧ ¬w.ShowsWhole := by
  obtain ⟨w, next, hm, hstep, hcalls, hl, hcap, hsb, hroot, hahead, hcount, hfirst, hsector⟩ :=
    late_checkpoint
  have hlimit := logLimit_smallDisk 0 Checkpoint.new
  obtain ⟨w', hstep', -, hcap', hcalls', hdisk⟩ := cut_second_write hm rfl hlimit hcap
  obtain ⟨-, hreach⟩ := @mount_fresh _ fresh_smallDisk Run.always trivial
  refine ⟨w', (hreach.next trivial hstep).next trivial hstep', ?_⟩
  have hlow : ∀ x, x ≤ 2 → w'.disk x = w.disk x := fun x hx => by
    rw [hdisk, Function.update_of_ne (by omega)]
  have hroot' : Root w'.disk 1 next := by
    refine ⟨(congrArg _ (hlow _ (by decide))).trans hroot, fun c hc => ?_⟩
    rw [show (1 : Fin 2) - 1 = 0 from rfl, hlow _ (by decide), hl.live] at hc
    cases hc
    exact hahead.seq_lt
  have hsb' : SuperblockOk (w'.disk SB_SECTOR) := by
    rw [hlow _ (by decide)]
    exact hl.superblock
  have hmount := mount_of_root (d := w'.device []) rfl (by show 2 < w'.capacity; omega) hsb' hroot'
  have hname : (Fs.newEntry "a" firstData LOG_START 2).nameStr = "a" :=
    Fs.nameStr_newEntry (by decide) (by decide)
  have hentry : (adopt (w'.disk SB_SECTOR) 1 next).entry "a" =
      some (Fs.newEntry "a" firstData LOG_START 2) :=
    Fs.entry_of_single hcount hfirst hname
  have hread : ((adopt (w'.disk SB_SECTOR) 1 next).read "a" (List.replicate 513 0)
      (w'.device [])).1 = .ok (513, mixedData) := by
    have hholds : Fs.Holds (w'.device []) mixedData 8 2 := by
      intro s hs
      refine ⟨by show _ < w'.capacity; omega, ?_⟩
      obtain ⟨hzero, hone⟩ := dataSector_mixedData
      have hs' : s = 0 ∨ s = 1 := by omega
      rcases hs' with rfl | rfl
      · rw [hzero]
        exact (congrFun hdisk 8).trans (Function.update_self _ _ _)
      · rw [hone, ← hsector]
        exact (congrFun hdisk 9).trans (Function.update_of_ne (by decide) _ _)
    have hsize : (Fs.newEntry "a" firstData LOG_START 2).size.toNat = mixedData.length := by
      show (UInt32.ofNat firstData.length).toNat = _
      rw [length_mixedData, firstData, List.length_replicate]
      rfl
    rw [Fs.read_ok rfl hentry hsize (by rw [length_mixedData]; decide)
      sectorsOf_mixedData.symm (by rw [sectorsOf_mixedData]; exact hholds) (by rw [sectorsOf_mixedData]; decide)
      (by rw [length_mixedData, List.length_replicate]), length_mixedData]
    rw [List.drop_eq_nil_of_le (by rw [List.length_replicate]), List.append_nil]
  rintro ⟨m, d, hm', hshow⟩
  have hmEq : adopt (w'.disk SB_SECTOR) 1 next = m := by
    have h := hmount.symm.trans hm'
    cases h
    rfl
  subst hmEq
  obtain ⟨data, hmem, hdata⟩ := hshow "a" (by rw [hentry]; exact Option.some_ne_none _)
  rw [hcalls', hcalls] at hmem
  -- both calls wrote one byte value throughout
  have hlen : data.length = 513 ∧ data[0]? = data[512]? := by
    have huniform : ∀ v : UInt8, (List.replicate 513 v).length = 513 ∧
        (List.replicate 513 v)[0]? = (List.replicate 513 v)[512]? := by
      intro v
      rw [List.getElem?_replicate, List.getElem?_replicate, if_pos (by decide), if_pos (by decide)]
      exact ⟨List.length_replicate, rfl⟩
    rcases List.mem_cons.mp hmem with h | h
    · rw [(Prod.mk.inj h).2]
      exact huniform 2
    · rw [(Prod.mk.inj (List.mem_singleton.mp h)).2]
      exact huniform 1
  have heq := hdata (List.replicate 513 0) (by rw [hlen.1, List.length_replicate])
  rw [hread, hlen.1, List.drop_eq_nil_of_le (by rw [List.length_replicate]), List.append_nil] at heq
  have hmix : mixedData = data := by
    injection heq with heq
    injection heq
  have hbytes := hlen.2
  rw [← hmix, mixedData, List.getElem?_append_left (by rw [List.length_replicate]; decide),
    List.getElem?_append_right (by rw [List.length_replicate]), List.length_replicate,
    List.getElem?_replicate, if_pos (by decide)] at hbytes
  cases hbytes

end JungeyOs.Jlfs
