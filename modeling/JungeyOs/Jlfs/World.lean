import JungeyOs.Jlfs.OpsLemmas
import JungeyOs.Lib.Run

/-!
# Histories of a JLFS disk

The disk and the one mounted `Fs` as a system: calls of `Fs::write` and
`Fs::set_entry` with any device fates, lookups with `Fs::entry`, mounts and power
cuts, in any order. A `set_entry` call is one that `intent::undo` makes
(`intent.rs`, lines 170–208): it removes a name or puts back an entry that
`Fs::entry` returned earlier for that name.

Results:
* `Call.outcome`: everything a call can do to the disk and to the mounted `Fs`.
* `inv_step`: every step keeps the layout of the disk (`Inv`).
* `Layout.root`: `mount` adopts a root whose extents lie below its log head.
-/

namespace JungeyOs.Jlfs

/-! ## Calls -/

/-- A call that changes the filesystem. -/
inductive Call
  | write (name : String) (data : List UInt8) (crashAfter : Option UInt32)
  | setEntry (name : String) (entry : Option FileEntry)

namespace Call

/-- The call itself. -/
def run (fs : Fs) : Call → Blk Fs
  | .write name data crashAfter => fs.write name data crashAfter
  | .setEntry name entry => fs.setEntry name entry

/-- The call up to its checkpoint. -/
def stage (fs : Fs) : Call → Blk (Option Checkpoint)
  | .write name data crashAfter => do
    let next ← fs.stageWrite name data crashAfter
    pure (some next)
  | .setEntry name entry => fs.stageEntry name entry

/-- The same call without its own power cut. -/
def uncut : Call → Call
  | .write name data _ => .write name data none
  | .setEntry name entry => .setEntry name entry

/-- The entry that the call puts into the directory. -/
def added (fs : Fs) : Call → Option FileEntry
  | .write name data _ => some (Fs.newEntry name data fs.cp.logHead (Fs.sectorsOf data))
  | .setEntry _ entry => entry

/-- How many sectors the call appends to the log. -/
def appended : Call → ℕ
  | .write _ data _ => (Fs.sectorsOf data).toNat
  | .setEntry _ _ => 0

/-- What the call puts where before its checkpoint. -/
def Stores (fs : Fs) : Call → ℕ → Sector → Prop
  | .write name data _ => fs.Stores name data
  | .setEntry _ _ => fun _ _ => False

/-- Before its checkpoint a call leaves everything below the log head alone. -/
theorem Stores.head_le {c : Call} {fs : Fs} {x : ℕ} {v : Sector} (h : c.Stores fs x v) :
    fs.cp.logHead.toNat ≤ x := by
  cases c with
  | write name data crashAfter =>
    obtain ⟨-, s, -, rfl, -⟩ := h
    exact Nat.le_add_right _ _
  | setEntry name entry => exact h.elim

theorem run_eq (c : Call) (fs : Fs) : c.run fs = c.stage fs >>= fun
    | none => pure fs
    | some next => fs.commit next := by
  cases c with
  | write name data crashAfter =>
    funext d
    simp only [run, stage, Fs.write, Blk.bind_apply]
    generalize fs.stageWrite name data crashAfter d = r
    obtain ⟨x, d'⟩ := r
    cases x <;> rfl
  | setEntry name entry => rfl

/-- Everything a call can do. -/
inductive Outcome (c : Call) (fs : Fs) (d : Device) : Exit Fs → Device → Prop
  /-- There was nothing to commit. -/
  | nothing {d'} : Blk.Frame (c.Stores fs) d d' → Outcome c fs d (.ok fs) d'
  /-- The call failed, or the machine stopped, with no checkpoint on the disk. -/
  | failed {r d'} : Blk.Frame (c.Stores fs) d d' → (∀ a, r ≠ .ok a) →
      Outcome c fs d r d'
  /-- The checkpoint landed; the call returned `Ok`, or the power went, or (where
  the driver answered too late) it returned `Err`. -/
  | landed {r d1 d' next} : c.stage fs d = (.ok (some next), d1) →
      Blk.Frame (c.Stores fs) d d1 →
      d'.disk = Function.update d1.disk (CP_SECTORS (1 - fs.slot)) next.encode →
      (CP_SECTORS (1 - fs.slot), next.encode) ∈ d'.trace →
      (r = .ok { fs with cp := next, slot := 1 - fs.slot } ∨ r = .halted .powerOff ∨
        r = .err "block driver did not answer" ∧ WriteFate.landed ∈ d.writes) →
      Outcome c fs d r d'

variable {c : Call} {fs : Fs} {d d' : Device}

theorem touches_stage (c : Call) (fs : Fs) : Blk.Touches (c.Stores fs) (c.stage fs) := by
  cases c with
  | write name data crashAfter => exact .bind Fs.touches_stageWrite fun _ => .pure _
  | setEntry name entry => exact Fs.touches_stageEntry

theorem frame_below (h : Blk.Frame (c.Stores fs) d d') {x : ℕ} (hx : x < fs.cp.logHead.toNat) :
    d'.disk x = d.disk x :=
  (h.disk x).resolve_right fun hst => absurd hst.head_le (Nat.not_le.mpr hx)

theorem replays_stage : Blk.Replays (c.stage fs) (c.uncut.stage fs) := by
  cases c with
  | write name data crashAfter => exact .bind Fs.replays_stageWrite fun _ => .pure _
  | setEntry name entry => exact Fs.replays_stageEntry

/-- The root that a call is about to write. -/
theorem stage_ok {next : Checkpoint} (hwf : fs.cp.WF) (h : c.stage fs d = (.ok (some next), d')) :
    fs.Next (c.added fs) next ∧ next.logHead.toNat = fs.cp.logHead.toNat + c.appended := by
  cases c with
  | write name data crashAfter =>
    obtain ⟨next', d1, hstage, hpure⟩ := Blk.bind_eq_ok h
    cases hpure
    obtain ⟨hnext, hhead, -, -⟩ := Fs.stageWrite_ok hwf hstage
    exact ⟨hnext, hhead⟩
  | setEntry name entry =>
    obtain ⟨-, hall⟩ := Fs.stageEntry_ok hwf h
    obtain ⟨hnext, hhead⟩ := hall next rfl
    exact ⟨hnext, by rw [hhead]; rfl⟩

theorem outcome (c : Call) (fs : Fs) (d : Device) :
    Outcome c fs d (c.run fs d).1 (c.run fs d).2 := by
  have hframe := touches_stage c fs d
  rw [run_eq]
  match hst : c.stage fs d with
  | (.err e, d1) =>
    rw [Blk.bind_of_err hst]
    rw [hst] at hframe
    exact .failed hframe (by simp)
  | (.halted why, d1) =>
    rw [Blk.bind_of_halted hst]
    rw [hst] at hframe
    exact .failed hframe (by simp)
  | (.ok none, d1) =>
    rw [Blk.bind_of_ok hst]
    rw [hst] at hframe
    exact .nothing hframe
  | (.ok (some next), d1) =>
    rw [Blk.bind_of_ok hst]
    rw [hst] at hframe
    simp only [Fs.commit]
    have htail : Blk.Frame (c.Stores fs) d
        { d1 with writes := d1.writes.tail } :=
      hframe.trans
        ⟨rfl, fun _ => .inl rfl, List.tail_suffix _, fun _ => .inl, List.prefix_refl _⟩
    rcases Blk.writeSector_cases (CP_SECTORS (1 - fs.slot)) next.encode d1 with
      ⟨hw, -⟩ | ⟨e, he, hw | ⟨hw, hfate⟩⟩
    · rw [Blk.bind_of_ok hw]
      exact .landed hst hframe rfl (by simp [Device.store]) (.inl rfl)
    · rcases he with rfl | rfl
      · rw [Blk.bind_of_err hw]
        exact .failed htail (by simp)
      · rw [Blk.bind_of_halted hw]
        exact .failed htail (by simp)
    · rcases he with rfl | rfl
      · rw [Blk.bind_of_err hw]
        refine .landed hst hframe rfl (by simp [Device.store]) (.inr (.inr ⟨rfl, ?_⟩))
        -- an `Err` after the sector landed is the fate `landed`
        rcases hfate with hfate | hfate
        · exact hframe.writes.subset (Blk.mem_of_nextWrite_landed hfate)
        · exact absurd hw (Blk.writeSector_ne_err hfate)
      · rw [Blk.bind_of_halted hw]
        exact .landed hst hframe rfl (by simp [Device.store]) (.inr (.inl rfl))

end Call

/-! ## The system -/

/-- The disk, the mounted `Fs` if the machine is up, the entries that `Fs::entry`
returned so far, and every `Fs::write` call made. -/
structure World where
  capacity : ℕ
  disk : Disk
  mounted : Option Fs
  saved : List (String × FileEntry)
  calls : List (String × List UInt8)

inductive Act
  | call (c : Call) (writes : List WriteFate)
  | entry (name : String)
  | mount
  | powerCut

/-- `set_entry` as `intent::undo` uses it. -/
def Call.Allowed (w : World) : Call → Prop
  | .write _ _ _ => True
  | .setEntry _ none => True
  | .setEntry name (some e) => (name, e) ∈ w.saved

instance (w : World) (c : Call) : Decidable (c.Allowed w) :=
  match c with
  | .write _ _ _ => isTrue trivial
  | .setEntry _ none => isTrue trivial
  | .setEntry name (some e) => inferInstanceAs (Decidable ((name, e) ∈ w.saved))

/-- The `Fs::write` call that `c` is. -/
def Call.logged : Call → List (String × List UInt8)
  | .write name data _ => [(name, data)]
  | .setEntry _ _ => []

namespace World

/-- The disk with the given fates for the writes to come; reads go well. -/
def device (w : World) (writes : List WriteFate) : Device :=
  { capacity := w.capacity, disk := w.disk, writes := writes }

/-- The state after `c` ended with `r` on `d'`. -/
def after (w : World) (c : Call) (fs : Fs) (r : Exit Fs) (d' : Device) : World :=
  { w with
    disk := d'.disk
    mounted := match r with
      | .ok fs' => some fs'
      | .err _ => some fs
      | .halted _ => none
    calls := c.logged ++ w.calls }

def step (w : World) : Act → Option World
  | .call c writes => w.mounted.bind fun fs =>
    if c.Allowed w then
      let (r, d') := c.run fs (w.device writes)
      some (w.after c fs r d')
    else none
  | .entry name => w.mounted.bind fun fs =>
    (fs.entry name).map fun e => { w with saved := (name, e) :: w.saved }
  | .mount =>
    match mount (w.device []) with
    | (.ok fs, _) => some { w with mounted := some fs }
    | _ => some { w with mounted := none }
  | .powerCut => some { w with mounted := none }

/-- A disk that `format` just laid out, before the first mount. -/
def Fresh (w : World) : Prop :=
  (∃ total d d', format total d = (.ok (), d') ∧ w.capacity = d'.capacity ∧ w.disk = d'.disk) ∧
    w.mounted = none ∧ w.saved = [] ∧ w.calls = []

end World

/-! ## The layout of the disk -/

/-- The extent of `e` lies in the log, below `head`. -/
def FileEntry.Within (e : FileEntry) (head : ℕ) : Prop :=
  e.sectors.toNat = 0 ∨ LOG_START.toNat ≤ e.start.toNat ∧ e.start.toNat + e.sectors.toNat ≤ head

theorem FileEntry.Within.mono {e : FileEntry} {head head' : ℕ} (h : e.Within head)
    (hle : head ≤ head') : e.Within head' :=
  h.imp_right fun ⟨h1, h2⟩ => ⟨h1, h2.trans hle⟩

theorem FileEntry.Within.start_le {e : FileEntry} {head k : ℕ} (h : e.Within head)
    (hk : k < e.sectors.toNat) : e.start.toNat + k < head := by
  rcases h with h | ⟨-, h⟩ <;> omega

/-- Every extent of `cp` lies in the log, below its head. -/
structure Checkpoint.Sound (cp : Checkpoint) : Prop where
  head : LOG_START.toNat ≤ cp.logHead.toNat
  within : ∀ e ∈ cp.live, e.Within cp.logHead.toNat

theorem Checkpoint.sound_new : Checkpoint.new.Sound := by
  refine ⟨le_rfl, fun e he => ?_⟩
  rw [Checkpoint.live_new] at he
  cases he

/-- `c` is the root after `cp` that an unacknowledged checkpoint write left on the
disk. -/
structure Checkpoint.Ahead (c cp : Checkpoint) : Prop where
  seq : c.seq.toNat = cp.seq.toNat + 1
  sound : c.Sound
  head : cp.logHead.toNat ≤ c.logHead.toNat

/-- The disk and the mounted `Fs` agree on slot `slot`, which holds `cp`. The
other slot holds nothing, an older checkpoint or, where `amb` allows it, the one
that follows `cp`. -/
structure Layout (amb : Prop) (w : World) (slot : Fin 2) (cp : Checkpoint) : Prop where
  capacity : 2 < w.capacity
  superblock : SuperblockOk (w.disk SB_SECTOR)
  live : Checkpoint.decode (w.disk (CP_SECTORS slot)) = some cp
  sound : cp.Sound
  other : ∀ c, Checkpoint.decode (w.disk (CP_SECTORS (1 - slot))) = some c →
    c.seq < cp.seq ∨ amb ∧ c.Ahead cp
  mounted : ∀ fs, w.mounted = some fs → fs = adopt (w.disk SB_SECTOR) slot cp
  saved : ∀ p ∈ w.saved, p.2.nameStr = p.1 ∧ p.2.Within cp.logHead.toNat

/-- The invariant of the system. -/
def Inv (amb : Prop) (w : World) : Prop := ∃ slot cp, Layout amb w slot cp

namespace Layout

variable {amb : Prop} {w : World} {slot : Fin 2} {cp : Checkpoint}

theorem wf (h : Layout amb w slot cp) : cp.WF := Checkpoint.decode_wf h.live

theorem one_sub_one_sub (slot : Fin 2) : 1 - (1 - slot) = slot := by omega

theorem one_sub_ne (slot : Fin 2) : slot ≠ 1 - slot := by omega

/-- The superblock and the live slot lie below the log, and neither is the slot
that the next checkpoint goes to. -/
theorem fixed (h : Layout amb w slot cp) {disk : Disk}
    (hlow : ∀ x, x < cp.logHead.toNat → x ≠ CP_SECTORS (1 - slot) → disk x = w.disk x) :
    disk SB_SECTOR = w.disk SB_SECTOR ∧ disk (CP_SECTORS slot) = w.disk (CP_SECTORS slot) := by
  have hhead : 8 ≤ cp.logHead.toNat := h.sound.head
  constructor
  · refine hlow _ (by simp only [SB_SECTOR]; omega) ?_
    rcases cpSector_cases (1 - slot) with h | h <;> rw [h] <;> decide
  · exact hlow _ (by rcases cpSector_cases slot with h | h <;> omega) (cpSector_ne (one_sub_ne slot))

variable {w' : World}

/-- What happens in the log past the head does not disturb the layout. -/
theorem of_frame (h : Layout amb w slot cp) (hcap : w'.capacity = w.capacity)
    (hsaved : w'.saved = w.saved) (hdisk : ∀ x, x < cp.logHead.toNat → w'.disk x = w.disk x)
    (hm : ∀ fs, w'.mounted = some fs → w.mounted = some fs) : Layout amb w' slot cp := by
  obtain ⟨hsb, hslot⟩ := h.fixed fun x hx _ => hdisk x hx
  have hhead : 8 ≤ cp.logHead.toNat := h.sound.head
  have hother : w'.disk (CP_SECTORS (1 - slot)) = w.disk (CP_SECTORS (1 - slot)) :=
    hdisk _ (by rcases cpSector_cases (1 - slot) with h | h <;> omega)
  refine ⟨hcap ▸ h.capacity, hsb ▸ h.superblock, hslot ▸ h.live, h.sound, hother ▸ h.other, ?_,
    hsaved ▸ h.saved⟩
  intro fs hfs
  rw [hsb]
  exact h.mounted fs (hm fs hfs)

/-- The root that a call stages follows the live one. -/
theorem ahead_of_next (h : Layout amb w slot cp) {fs : Fs} (hfs : fs.cp = cp) {c : Call}
    {next : Checkpoint} (hc : c.Allowed w) (hnext : fs.Next (c.added fs) next)
    (hhead : next.logHead.toNat = fs.cp.logHead.toNat + c.appended) : next.Ahead cp := by
  subst hfs
  refine ⟨hnext.seq, ⟨?_, fun e he => ?_⟩, by omega⟩
  · have := h.sound.head
    omega
  · rcases hnext.live e he with hold | hnew
    · exact (h.sound.within e hold).mono (by omega)
    · cases c with
      | write name data crashAfter =>
        rw [Option.some.inj hnew]
        exact .inr ⟨h.sound.head, le_of_eq hhead.symm⟩
      | setEntry name entry =>
        obtain rfl : entry = some e := hnew.symm
        exact (h.saved (name, e) hc).2.mono (by omega)

/-- The checkpoint landed and the other slot is now the live one. -/
theorem of_landed (h : Layout amb w slot cp) {next : Checkpoint} (hwf : next.WF)
    (hnext : next.Ahead cp) (hcap : w'.capacity = w.capacity) (hsaved : w'.saved = w.saved)
    (hdisk : w'.disk (CP_SECTORS (1 - slot)) = next.encode)
    (hlow : ∀ x, x < cp.logHead.toNat → x ≠ CP_SECTORS (1 - slot) → w'.disk x = w.disk x)
    (hm : ∀ fs, w'.mounted = some fs → fs = adopt (w.disk SB_SECTOR) (1 - slot) next) :
    Layout amb w' (1 - slot) next := by
  obtain ⟨hsb, hslot⟩ := h.fixed hlow
  refine ⟨hcap ▸ h.capacity, hsb ▸ h.superblock, hdisk ▸ Checkpoint.decode_encode hwf,
    hnext.sound, ?_, hsb ▸ hm, fun p hp => ?_⟩
  · intro c hc
    rw [one_sub_one_sub, hslot, h.live] at hc
    cases hc
    exact .inl (UInt64.lt_iff_toNat_lt.mpr (by rw [hnext.seq]; omega))
  · rw [hsaved] at hp
    exact ⟨(h.saved p hp).1, (h.saved p hp).2.mono hnext.head⟩

/-- The checkpoint landed and the mounted `Fs` does not know. -/
theorem of_ambiguous (h : Layout amb w slot cp) (hamb : amb) {next : Checkpoint} (hwf : next.WF)
    (hnext : next.Ahead cp) (hcap : w'.capacity = w.capacity) (hsaved : w'.saved = w.saved)
    (hdisk : w'.disk (CP_SECTORS (1 - slot)) = next.encode)
    (hlow : ∀ x, x < cp.logHead.toNat → x ≠ CP_SECTORS (1 - slot) → w'.disk x = w.disk x)
    (hm : ∀ fs, w'.mounted = some fs → w.mounted = some fs) : Layout amb w' slot cp := by
  obtain ⟨hsb, hslot⟩ := h.fixed hlow
  refine ⟨hcap ▸ h.capacity, hsb ▸ h.superblock, hslot ▸ h.live, h.sound, ?_, ?_,
    hsaved ▸ h.saved⟩
  · intro c hc
    rw [hdisk, Checkpoint.decode_encode hwf] at hc
    cases hc
    exact .inr ⟨hamb, hnext⟩
  · intro fs hfs
    rw [hsb]
    exact h.mounted fs (hm fs hfs)

/-- The root that `mount` adopts, and the layout it leaves. -/
theorem root (h : Layout amb w slot cp) :
    ∃ slot' cp', Root w.disk slot' cp' ∧ cp'.Sound ∧ cp.logHead.toNat ≤ cp'.logHead.toNat ∧
      (cp' = cp ∧ slot' = slot ∨ amb ∧ cp'.Ahead cp ∧ slot' = 1 - slot) := by
  by_cases hstale : ∀ c, Checkpoint.decode (w.disk (CP_SECTORS (1 - slot))) = some c → c.seq < cp.seq
  · exact ⟨slot, cp, ⟨h.live, hstale⟩, h.sound, le_rfl, .inl ⟨rfl, rfl⟩⟩
  · push Not at hstale
    obtain ⟨c, hc, hnlt⟩ := hstale
    rcases h.other c hc with hlt | ⟨hamb, hahead⟩
    · exact absurd hlt hnlt
    · refine ⟨1 - slot, c, ⟨hc, fun c' hc' => ?_⟩, hahead.sound, hahead.head,
        .inr ⟨hamb, hahead, rfl⟩⟩
      rw [one_sub_one_sub, h.live] at hc'
      cases hc'
      exact UInt64.lt_iff_toNat_lt.mpr (by rw [hahead.seq]; omega)

/-- `mount` succeeds, and what it returns fits the disk. -/
theorem mount_ok (h : Layout amb w slot cp) :
    ∃ fs d, mount (w.device []) = (.ok fs, d) ∧
      Layout amb { w with mounted := some fs } fs.slot fs.cp ∧
      (∀ c, Checkpoint.decode (w.disk (CP_SECTORS (1 - fs.slot))) = some c → c.seq < fs.cp.seq) ∧
      (fs.cp = cp ∧ fs.slot = slot ∨ amb ∧ fs.cp.Ahead cp ∧ fs.slot = 1 - slot) := by
  obtain ⟨slot', cp', hroot, hsound, hhead, hcase⟩ := h.root
  refine ⟨_, _, mount_of_root rfl h.capacity h.superblock hroot, ?_, hroot.newest, hcase⟩
  refine ⟨h.capacity, h.superblock, hroot.live, hsound, fun c hc => .inl (hroot.newest c hc), ?_, ?_⟩
  · intro fs hfs
    cases hfs
    rfl
  · exact fun p hp => ⟨(h.saved p hp).1, (h.saved p hp).2.mono hhead⟩

/-- Where no root can be ahead, `mount` adopts the one the layout names. -/
theorem mount_eq (h : Layout False w slot cp) :
    mount (w.device []) = (.ok (adopt (w.disk SB_SECTOR) slot cp), w.device []) :=
  mount_of_root rfl h.capacity h.superblock
    ⟨h.live, fun c hc => (h.other c hc).elim id fun ⟨hf, _⟩ => hf.elim⟩

end Layout

/-! ## Every step keeps the layout -/

section Step

variable {amb : Prop} {w w' : World}

theorem layout_fresh (h : w.Fresh) : Layout amb w 0 Checkpoint.new := by
  obtain ⟨⟨total, d, d', hfmt, hcap, hdisk⟩, hm, hs, -⟩ := h
  obtain ⟨hcapacity, ⟨len, spill, audit, ota, hsb, -⟩, hA, hB⟩ := format_ok hfmt
  refine ⟨hcap ▸ hcapacity, ?_, ?_, Checkpoint.sound_new, ?_, ?_, ?_⟩
  · rw [hdisk, hsb]
    exact superblockOk _ _ _ _ _
  · rw [hdisk, hA]
    exact Checkpoint.decode_encode Checkpoint.wf_new
  · intro c hc
    rw [show (1 : Fin 2) - 0 = 1 from rfl, hdisk, hB, decode_blank] at hc
    cases hc
  · intro fs hfs
    rw [hm] at hfs
    cases hfs
  · rw [hs]
    intro p hp
    cases hp

/-- What a call leaves is laid out again. Either no checkpoint landed, and the
log below the head and both slots are as before; or the next root landed, and is
the live one unless the call returned `Err` all the same, which needs `amb`. -/
theorem layout_call {slot : Fin 2} {cp : Checkpoint} (h : Layout amb w slot cp) {fs : Fs}
    (hm : w.mounted = some fs) {c : Call} (hc : c.Allowed w) {d : Device} (hd : d.disk = w.disk)
    (hamb : WriteFate.landed ∈ d.writes → amb) {r : Exit Fs} {d' : Device}
    (hout : c.Outcome fs d r d') :
    (Layout amb (w.after c fs r d') slot cp ∧ Blk.Frame (c.Stores fs) d d' ∧
      ∀ a, r = .ok a → a = fs) ∨
    ∃ d1 next, c.stage fs d = (.ok (some next), d1) ∧ next.Ahead cp ∧
      Blk.Frame (c.Stores fs) d d1 ∧
      d'.disk = Function.update d1.disk (CP_SECTORS (1 - fs.slot)) next.encode ∧
      (CP_SECTORS (1 - fs.slot), next.encode) ∈ d'.trace ∧
      (Layout amb (w.after c fs r d') (1 - slot) next ∧
          (∀ a, r = .ok a → a = { fs with cp := next, slot := 1 - fs.slot }) ∨
        amb ∧ Layout amb (w.after c fs r d') slot cp ∧ ∀ a, r ≠ .ok a) := by
  have hfs := h.mounted fs hm
  have hcp : fs.cp = cp := by rw [hfs]; rfl
  have hslot : fs.slot = slot := by rw [hfs]; rfl
  have hwf : fs.cp.WF := hcp ▸ h.wf
  have hframe : ∀ {e : Device}, Blk.Frame (c.Stores fs) d e →
      ∀ x, x < cp.logHead.toNat → e.disk x = w.disk x :=
    fun he x hx => hd ▸ Call.frame_below he (hcp ▸ hx)
  cases hout with
  | nothing hf =>
    refine .inl ⟨h.of_frame rfl rfl (hframe hf) fun fs' hfs' => hm.trans hfs', hf, ?_⟩
    intro a ha
    cases ha
    rfl
  | failed hf hr =>
    refine .inl ⟨h.of_frame rfl rfl (hframe hf) fun fs' hfs' => ?_, hf,
      fun a ha => absurd ha (hr a)⟩
    cases r with
    | ok a => exact absurd rfl (hr a)
    | err msg => exact hm.trans hfs'
    | halted why => cases hfs'
  | @landed _ d1 _ next hst hf hdisk htrace hr =>
    obtain ⟨hnext, hhead⟩ := Call.stage_ok hwf hst
    have hahead := h.ahead_of_next hcp hc hnext hhead
    have hcpSector : d'.disk (CP_SECTORS (1 - slot)) = next.encode := by
      rw [hdisk, hslot, Function.update_self]
    have hlow : ∀ x, x < cp.logHead.toNat → x ≠ CP_SECTORS (1 - slot) → d'.disk x = w.disk x := by
      intro x hx hne
      rw [hdisk, hslot, Function.update_of_ne hne, hframe hf x hx]
    refine .inr ⟨d1, next, hst, hahead, hf, hdisk, htrace, ?_⟩
    rcases hr with rfl | rfl | ⟨rfl, hfate⟩
    · refine .inl ⟨h.of_landed hnext.wf hahead rfl rfl hcpSector hlow fun fs' hfs' => ?_, ?_⟩
      · cases hfs'
        rw [hfs]
        rfl
      · intro a ha
        cases ha
        rfl
    · refine .inl ⟨h.of_landed hnext.wf hahead rfl rfl hcpSector hlow fun fs' hfs' => ?_, ?_⟩
      · cases hfs'
      · intro a ha
        cases ha
    · refine .inr ⟨hamb hfate, ?_, by simp⟩
      exact h.of_ambiguous (hamb hfate) hnext.wf hahead rfl rfl hcpSector hlow
        fun fs' hfs' => hm.trans hfs'

/-- Every step keeps the layout of the disk. -/
theorem inv_step {a : Act} (h : Inv amb w)
    (hamb : ∀ c writes, a = .call c writes → WriteFate.landed ∈ writes → amb)
    (hs : w.step a = some w') : Inv amb w' := by
  obtain ⟨slot, cp, hl⟩ := h
  cases a with
  | call c writes =>
    obtain ⟨fs, hm, hs⟩ := Option.bind_eq_some_iff.mp hs
    split_ifs at hs with hc
    cases hs
    rcases layout_call hl hm hc (d := w.device writes) rfl (hamb c writes rfl)
      (c.outcome fs _) with
      ⟨hl', -⟩ | ⟨_, next, -, -, -, -, -, ⟨hl', -⟩ | ⟨-, hl', -⟩⟩
    · exact ⟨slot, cp, hl'⟩
    · exact ⟨1 - slot, next, hl'⟩
    · exact ⟨slot, cp, hl'⟩
  | entry name =>
    obtain ⟨fs, hm, hs⟩ := Option.bind_eq_some_iff.mp hs
    obtain ⟨e, he, rfl⟩ := Option.map_eq_some_iff.mp hs
    refine ⟨slot, cp, { hl with saved := fun p hp => ?_ }⟩
    rcases List.mem_cons.mp hp with rfl | hp
    · have hcp : fs.cp = cp := by rw [hl.mounted fs hm]; rfl
      obtain ⟨hname, hmem⟩ := Fs.entry_eq_some (hcp ▸ hl.wf) he
      exact ⟨hname, hl.sound.within _ (hcp ▸ hmem)⟩
    · exact hl.saved p hp
  | mount =>
    obtain ⟨fs, d, hmount, hl', -⟩ := hl.mount_ok
    simp only [World.step, hmount] at hs
    cases hs
    exact ⟨fs.slot, fs.cp, hl'⟩
  | powerCut =>
    cases hs
    exact ⟨slot, cp, { hl with mounted := fun fs hfs => by cases hfs }⟩

end Step

/-! ## A small disk -/

/-- A disk of 20000 sectors that `format` just laid out. -/
def smallDisk : World where
  capacity := 20000
  disk := (format 20000 { capacity := 20000, disk := fun _ => blankSector }).2.disk
  mounted := none
  saved := []
  calls := []

theorem format_smallDisk : ∃ d', format 20000 { capacity := 20000, disk := fun _ => blankSector } =
    (.ok (), d') ∧ d'.capacity = 20000 ∧ smallDisk.disk = d'.disk := by
  obtain ⟨d', hfmt, hcap⟩ := @format_healthy 20000
    { capacity := 20000, disk := fun _ => blankSector } rfl (by decide) (by decide)
  exact ⟨d', hfmt, hcap, by rw [smallDisk, hfmt]⟩

theorem capacity_smallDisk : smallDisk.capacity = 20000 := rfl

theorem calls_smallDisk : smallDisk.calls = [] := rfl

theorem fresh_smallDisk : smallDisk.Fresh := by
  obtain ⟨d', hfmt, hcap, hdisk⟩ := format_smallDisk
  exact ⟨⟨20000, _, d', hfmt, hcap.symm, hdisk⟩, rfl, rfl, rfl⟩

attribute [irreducible] smallDisk

/-- The log of the small disk reaches up to sector 1438. -/
theorem logLimit_smallDisk (slot : Fin 2) (cp : Checkpoint) :
    (adopt (smallDisk.disk SB_SECTOR) slot cp).logLimit.toNat = 1439 := by
  obtain ⟨d', hfmt, -, hdisk⟩ := format_smallDisk
  obtain ⟨-, ⟨len, spill, audit, ota, hsb, hgeo, -⟩, -, -⟩ := format_ok hfmt
  rw [hdisk, hsb, hgeo.logLimit]
  obtain ⟨h1, h2, h3, -⟩ := hgeo
  have e1 : (20000 : UInt64).toNat = 20000 := rfl
  have e2 : SPILL_SECTORS.toNat = 16384 := rfl
  have e3 : AUDIT_SECTORS.toNat = 2048 := rfl
  have e4 : OTA_SECTORS.toNat = 129 := rfl
  omega

/-- A freshly laid out disk can be mounted. -/
theorem mount_fresh {w : World} (h : w.Fresh) {ok : World → Act → Prop} (hok : ok w .mount) :
    w.step .mount =
        some { w with mounted := some (adopt (w.disk SB_SECTOR) 0 Checkpoint.new) } ∧
      Run.Reachable World.step ok World.Fresh
        { w with mounted := some (adopt (w.disk SB_SECTOR) 0 Checkpoint.new) } := by
  have hl : Layout False w 0 Checkpoint.new := layout_fresh h
  have hstep : w.step .mount =
      some { w with mounted := some (adopt (w.disk SB_SECTOR) 0 Checkpoint.new) } := by
    simp only [World.step, hl.mount_eq]
  exact ⟨hstep, .next (.start h) hok hstep⟩

end JungeyOs.Jlfs
