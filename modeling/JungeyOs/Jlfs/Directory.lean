import JungeyOs.Jlfs.World
import JungeyOs.Lib.Directory

/-!
# The directory of a checkpoint

The directory operations of `kernel/src/fs.rs` on the array of a checkpoint are
those of a list of entries keyed by `name_str`: `find` takes the first entry of a
name, `write` and `set_entry` put an entry in its place or after the last one, and
the removal in `set_entry` closes the gap.

Results:
* `Fs.entry_eq`: `entry` is the lookup in the list of live entries.
* `Fs.stageWrite_live`, `Fs.stageEntry_live`: the directory of the next root.
* `FileEntry.nul_not_mem_nameStr`: no name that is read back holds a NUL byte.
* `Call.effect`: what a call does to the mounted filesystem and to the log below
  its head, whatever becomes of its sector writes.
-/

namespace JungeyOs.Jlfs

open JungeyOs.Dir

/-! ## The array as a list -/

section Array

variable {files : Vector FileEntry MAX_FILES} {i count : ℕ} {e : FileEntry}

theorem length_live (files : Vector FileEntry MAX_FILES) (h : count ≤ MAX_FILES) :
    (files.toList.take count).length = count := by
  rw [List.length_take, Vector.length_toList]
  exact Nat.min_eq_left h

theorem take_setIfInBounds :
    (files.setIfInBounds i e).toList.take count = (files.toList.take count).set i e := by
  rw [Vector.toList_setIfInBounds, List.take_set]

theorem take_setIfInBounds_succ (h : count < MAX_FILES) :
    (files.setIfInBounds count e).toList.take (count + 1) = files.toList.take count ++ [e] := by
  have hlen : count < (files.toList.set count e).length := by
    rw [List.length_set, Vector.length_toList]
    exact h
  rw [Vector.toList_setIfInBounds, List.take_add_one, List.take_set_of_le (Nat.le_refl _),
    List.getElem?_eq_getElem hlen, List.getElem_set_self]
  rfl

/-- The moves of the shift, one entry at a time. -/
theorem getElem_shift (n : ℕ) (h : i + n < MAX_FILES) {k : ℕ} (hk : k < MAX_FILES) :
    ((List.range' i n).foldl Fs.shiftOne files)[k]? =
      if i ≤ k ∧ k < i + n then files[k + 1]? else files[k]? := by
  induction n generalizing i files with
  | zero => simp
  | succ n ih =>
    rw [List.range'_succ, List.foldl_cons, ih (by omega), Fs.shiftOne, Vector.getElem?_setIfInBounds,
      Vector.getElem?_setIfInBounds]
    have hi : i < MAX_FILES := by omega
    have hnext : i + 1 < MAX_FILES := by omega
    have hsome : files[i + 1]? = some (files[i + 1]?.getD FileEntry.empty) := by
      rw [Vector.getElem?_eq_getElem hnext, Option.getD_some]
    by_cases hik : i = k
    · subst hik
      simp [hi, ← hsome]
    · have hne : i ≠ k + 1 ∨ ¬(i + 1 ≤ k ∧ k < i + 1 + n) := by omega
      by_cases hrange : i + 1 ≤ k ∧ k < i + 1 + n
      · rw [if_pos hrange, if_neg (by omega), if_pos (by omega)]
      · rw [if_neg hrange, if_neg hik, if_neg (by omega)]

/-- The shift removes one entry. -/
theorem take_shiftDown (hi : i < count) (h : count ≤ MAX_FILES) :
    (Fs.shiftDown files i count).toList.take (count - 1) = (files.toList.take count).eraseIdx i := by
  refine List.ext_getElem? fun k => ?_
  have hshift : Fs.shiftDown files i count =
      ((List.range' i (count - 1 - i)).foldl Fs.shiftOne files).setIfInBounds (count - 1)
        FileEntry.empty := rfl
  rw [List.getElem?_take, List.getElem?_eraseIdx, List.getElem?_take, List.getElem?_take,
    Vector.getElem?_toList, Vector.getElem?_toList, Vector.getElem?_toList]
  by_cases hk : k < count - 1
  · rw [if_pos hk, hshift, Vector.getElem?_setIfInBounds, if_neg (by omega),
      getElem_shift _ (by omega) (by omega)]
    by_cases hik : k < i
    · rw [if_neg (by omega), if_pos hik, if_pos (by omega)]
    · rw [if_pos (by omega), if_neg hik, if_pos (by omega)]
  · rw [if_neg hk]
    by_cases hik : k < i
    · omega
    · rw [if_neg hik, if_neg (by omega)]

end Array

/-! ## Names -/

/-- No name that is read back holds a NUL byte. -/
theorem FileEntry.nul_not_mem_nameStr (e : FileEntry) : 0 ∉ asBytes e.nameStr := by
  unfold FileEntry.nameStr fromUtf8
  by_cases hv : (⟨(e.name.toList.takeWhile (· ≠ 0)).toArray⟩ : ByteArray).IsValidUTF8
  · rw [String.fromUTF8?, dif_pos hv]
    intro h
    have hmem : (0 : UInt8) ∈ e.name.toList.takeWhile (· ≠ 0) := by
      simpa [asBytes, String.fromUTF8] using h
    have hall := List.all_eq_true.mp
      (List.all_takeWhile (p := fun b => decide (b ≠ 0)) (l := e.name.toList)) 0 hmem
    simp at hall
  · rw [String.fromUTF8?, dif_neg hv]
    decide

namespace Fs

variable {fs : Fs} {name : String} {data : List UInt8} {crashAfter : Option UInt32}
  {entry : Option FileEntry} {d d' : Device}

/-! ## Lookups -/

/-- Where `find` finds a name, and what the directory operations do there. -/
theorem find_cases (fs : Fs) (name : String) :
    (fs.find name = none ∧ lookup FileEntry.nameStr fs.cp.live name = none) ∨
      ∃ i x, fs.find name = some i ∧ fs.cp.live[i]? = some x ∧
        lookup FileEntry.nameStr fs.cp.live name = some x ∧
        (∀ e, put FileEntry.nameStr fs.cp.live name e = fs.cp.live.set i e) ∧
        remove FileEntry.nameStr fs.cp.live name = fs.cp.live.eraseIdx i := by
  have hfind : fs.find name = fs.cp.live.findIdx? fun x => x.nameStr = name := by
    rw [find]
    congr 1
  rw [hfind]
  exact findIdx_cases FileEntry.nameStr fs.cp.live name

/-- `entry` is the lookup in the list of live entries. -/
theorem entry_eq (fs : Fs) (name : String) :
    fs.entry name = lookup FileEntry.nameStr fs.cp.live name := by
  rcases find_cases fs name with ⟨hfind, hnone⟩ | ⟨i, x, hfind, hget, hlook, -⟩
  · rw [entry, hfind, hnone, Option.bind_none]
  · rw [entry, hfind, hlook, Option.bind_some]
    rw [Checkpoint.live, List.getElem?_take] at hget
    split_ifs at hget with hi
    rw [← hget, Vector.getElem?_toList]

theorem find_eq_none : fs.find name = none ↔ lookup FileEntry.nameStr fs.cp.live name = none := by
  rcases find_cases fs name with ⟨hfind, hnone⟩ | ⟨i, x, hfind, -, hlook, -⟩
  · simp [hfind, hnone]
  · simp [hfind, hlook]

/-! ## The directory of the next root -/

/-- A write that reaches its checkpoint had room in the log. -/
theorem stageWrite_accepts {next : Checkpoint}
    (h : fs.stageWrite name data crashAfter d = (.ok next, d')) :
    fs.Accepts name data := by
  unfold stageWrite at h
  split_ifs at h with hname
  · cases h
  obtain ⟨stop, d1, hstop, h⟩ := Blk.bind_eq_ok h
  obtain ⟨hstopEq, -⟩ := Blk.addU64_ok hstop
  rw [UInt32.toNat_toUInt64] at hstopEq
  refine ⟨Nat.le_of_not_lt hname, ?_⟩
  by_cases hfull : stop > fs.logLimit
  · rw [if_pos hfull] at h
    cases h
  · rw [← hstopEq]
    exact UInt64.le_iff_toNat_le.mp (UInt64.not_lt.mp hfull)

/-- The entry that a write adds is found under its name, or no other one was. -/
theorem newEntry_name (h : fs.Accepts name data) (start : UInt64) (n : UInt32) :
    (newEntry name data start n).nameStr = name ∨
      lookup FileEntry.nameStr fs.cp.live name = none := by
  by_cases hnul : 0 ∈ asBytes name
  · right
    refine lookup_eq_none.mpr fun x _ hx => x.nul_not_mem_nameStr ?_
    rw [hx]
    exact hnul
  · exact .inl (nameStr_newEntry h.1 hnul)

theorem nextRoot_live {e : FileEntry} {seq logHead : UInt64} {next : Checkpoint} (hwf : fs.cp.WF)
    (h : fs.nextRoot name e seq logHead d = (.ok next, d')) :
    next.live = put FileEntry.nameStr fs.cp.live name e := by
  have hle := hwf.count_le
  unfold nextRoot at h
  rcases find_cases fs name with ⟨hfind, hnone⟩ | ⟨i, x, hfind, hget, -, hput, -⟩
  · rw [hfind] at h
    dsimp only at h
    split_ifs at h with hfull
    · cases h
    · cases h
      rw [put_of_none hnone]
      exact take_setIfInBounds_succ (by omega)
  · rw [hfind] at h
    cases h
    obtain ⟨hi, -⟩ := List.getElem?_eq_some_iff.mp hget
    rw [Checkpoint.live, length_live _ hle] at hi
    rw [hput]
    exact take_setIfInBounds

/-- The directory that a write commits. -/
theorem stageWrite_live {next : Checkpoint} (hwf : fs.cp.WF)
    (h : fs.stageWrite name data crashAfter d = (.ok next, d')) :
    next.live = put FileEntry.nameStr fs.cp.live name
      (newEntry name data fs.cp.logHead (sectorsOf data)) := by
  unfold stageWrite at h
  split_ifs at h with hname
  · cases h
  obtain ⟨stop, d1, -, h⟩ := Blk.bind_eq_ok h
  split_ifs at h with hfull hcrash
  · cases h
  · obtain ⟨_, d2, -, hhalt⟩ := Blk.bind_eq_ok h
    cases hhalt
  obtain ⟨_, d2, -, h⟩ := Blk.bind_eq_ok h
  obtain ⟨seq, d3, -, h⟩ := Blk.bind_eq_ok h
  obtain ⟨head, d4, -, h⟩ := Blk.bind_eq_ok h
  exact nextRoot_live hwf h

/-- A write of a new file that is accepted goes well if all its sectors land. -/
theorem write_progress (hwf : fs.cp.WF) (hacc : fs.Accepts name data) (hnew : fs.find name = none)
    (hroom : fs.cp.count < MAX_FILES) (hseq : fs.cp.seq.toNat + 1 < 2 ^ 64) (hslots : 2 < d.capacity)
    (hcap : fs.logLimit.toNat ≤ d.capacity)
    (hw : d.writes = List.replicate (sectorsOf data).toNat .ok) :
    ∃ fs' d', fs.write name data none d = (.ok fs', d') ∧
      fs'.cp.seq.toNat = fs.cp.seq.toNat + 1 ∧
      fs'.cp.live = fs.cp.live ++ [newEntry name data fs.cp.logHead (sectorsOf data)] := by
  obtain ⟨next, d₁, hstage, hleft, hcap', -⟩ := stageWrite_progress [] hacc hnew hroom hseq hcap
    (by rw [hw, List.append_nil])
  obtain ⟨hnext, -⟩ := stageWrite_ok hwf hstage
  have hsector : CP_SECTORS (1 - fs.slot) < d₁.capacity := by
    rcases cpSector_cases (1 - fs.slot) with h | h <;> omega
  refine ⟨{ fs with cp := next, slot := 1 - fs.slot },
    d₁.store (CP_SECTORS (1 - fs.slot)) next.encode, ?_, hnext.seq, ?_⟩
  · rw [write, Blk.bind_of_ok hstage, commit,
      Blk.bind_of_ok (Blk.writeSector_of_healthy _ hleft hsector)]
    rfl
  · rw [← put_of_none (find_eq_none.mp hnew)]
    exact stageWrite_live hwf hstage

/-- The directory that `set_entry` commits. -/
theorem stageEntry_live {next : Checkpoint} (hwf : fs.cp.WF)
    (h : fs.stageEntry name entry d = (.ok (some next), d')) :
    next.live = match entry with
      | some e => put FileEntry.nameStr fs.cp.live name e
      | none => remove FileEntry.nameStr fs.cp.live name := by
  have hle := hwf.count_le
  unfold stageEntry at h
  obtain ⟨seq, d1, -, h⟩ := Blk.bind_eq_ok h
  rcases find_cases fs name with ⟨hfind, hnone⟩ | ⟨i, x, hfind, hget, -, hput, hremove⟩
  · cases entry with
    | some e =>
      simp only [hfind] at h
      split_ifs at h with hfull
      · cases h
      · cases h
        dsimp only
        rw [put_of_none hnone]
        exact take_setIfInBounds_succ (by omega)
    | none =>
      simp only [hfind] at h
      cases h
  · obtain ⟨hi, -⟩ := List.getElem?_eq_some_iff.mp hget
    rw [Checkpoint.live, length_live _ hle] at hi
    cases entry with
    | some e =>
      simp only [hfind] at h
      cases h
      dsimp only
      rw [hput]
      exact take_setIfInBounds
    | none =>
      simp only [hfind] at h
      cases h
      dsimp only
      rw [hremove]
      exact take_shiftDown hi hle

/-- `set_entry` has nothing to commit where there is nothing to remove. -/
theorem stageEntry_none (h : fs.stageEntry name entry d = (.ok none, d')) :
    entry = none ∧ lookup FileEntry.nameStr fs.cp.live name = none := by
  unfold stageEntry at h
  obtain ⟨seq, d1, -, h⟩ := Blk.bind_eq_ok h
  rcases find_cases fs name with ⟨hfind, hnone⟩ | ⟨i, x, hfind, -⟩
  · cases entry with
    | some e =>
      simp only [hfind] at h
      split_ifs at h <;> cases h
    | none => exact ⟨rfl, hnone⟩
  · cases entry with
    | some e =>
      simp only [hfind] at h
      cases h
    | none =>
      simp only [hfind] at h
      cases h

end Fs

/-! ## Calls -/

namespace Call

variable {c : Call} {fs : Fs} {d d' : Device}

/-- The directory after the call, if it goes well. -/
def directory (fs : Fs) : Call → List FileEntry
  | .write name data _ => put FileEntry.nameStr fs.cp.live name
      (Fs.newEntry name data fs.cp.logHead (Fs.sectorsOf data))
  | .setEntry name (some e) => put FileEntry.nameStr fs.cp.live name e
  | .setEntry name none => remove FileEntry.nameStr fs.cp.live name

theorem stage_live {next : Checkpoint} (hwf : fs.cp.WF)
    (h : c.stage fs d = (.ok (some next), d')) : next.live = c.directory fs := by
  cases c with
  | write name data crashAfter =>
    obtain ⟨next', d1, hstage, hpure⟩ := Blk.bind_eq_ok h
    obtain ⟨hnext, -⟩ := Blk.pure_eq_ok hpure
    cases hnext
    exact Fs.stageWrite_live hwf hstage
  | setEntry name entry =>
    rw [Fs.stageEntry_live hwf h]
    cases entry <;> rfl

theorem stage_none (h : c.stage fs d = (.ok none, d')) : fs.cp.live = c.directory fs := by
  cases c with
  | write name data crashAfter =>
    obtain ⟨next, d1, -, hpure⟩ := Blk.bind_eq_ok h
    obtain ⟨hnext, -⟩ := Blk.pure_eq_ok hpure
    cases hnext
  | setEntry name entry =>
    obtain ⟨rfl, hnone⟩ := Fs.stageEntry_none h
    exact (remove_of_none hnone).symm

/-- The extent that the call puts into the directory lies in the log. -/
def Fits (fs : Fs) : Call → Prop
  | .write _ _ _ => True
  | .setEntry _ none => True
  | .setEntry _ (some e) => e.Within fs.cp.logHead.toNat

/-- `fs'` follows `fs`: it is sound, and its log goes on where that of `fs` ends. -/
structure Follows (fs fs' : Fs) : Prop where
  wf : fs'.cp.WF
  sound : fs'.cp.Sound
  head : fs.cp.logHead.toNat ≤ fs'.cp.logHead.toNat

theorem Follows.refl (hwf : fs.cp.WF) (hs : fs.cp.Sound) : Follows fs fs :=
  ⟨hwf, hs, Nat.le_refl _⟩

theorem Follows.trans {fs' fs'' : Fs} (h : Follows fs fs') (h' : Follows fs' fs'') :
    Follows fs fs'' := ⟨h'.wf, h'.sound, Nat.le_trans h.head h'.head⟩

theorem follows_stage {next : Checkpoint} (hwf : fs.cp.WF) (hs : fs.cp.Sound) (hfit : c.Fits fs)
    (h : c.stage fs d = (.ok (some next), d')) (slot : Fin 2) :
    Follows fs { fs with cp := next, slot := slot } := by
  obtain ⟨hnext, hhead⟩ := stage_ok hwf h
  have hle : fs.cp.logHead.toNat ≤ next.logHead.toNat := by omega
  refine ⟨hnext.wf, ⟨Nat.le_trans hs.head hle, fun e he => ?_⟩, hle⟩
  rcases hnext.live e he with hold | hnew
  · exact (hs.within e hold).mono hle
  · cases c with
    | write name data crashAfter =>
      rw [Option.some.inj hnew]
      exact .inr ⟨hs.head, Nat.le_of_eq hhead.symm⟩
    | setEntry name entry =>
      obtain rfl : entry = some e := hnew.symm
      exact FileEntry.Within.mono hfit hle

/-- The log below the head is as it was. -/
structure SameLog (fs : Fs) (d d' : Device) : Prop where
  capacity : d'.capacity = d.capacity
  disk : ∀ x, LOG_START.toNat ≤ x → x < fs.cp.logHead.toNat → d'.disk x = d.disk x

/-- Whatever becomes of its sector writes, a call leaves the log below the head as it
is; if it goes well, the directory is the one it makes. -/
theorem effect (hwf : fs.cp.WF) (hs : fs.cp.Sound) (hfit : c.Fits fs) {r : Exit Fs}
    (h : c.run fs d = (r, d')) :
    SameLog fs d d' ∧ ∀ fs', r = .ok fs' → Follows fs fs' ∧ fs'.cp.live = c.directory fs := by
  have h8 : LOG_START.toNat = 8 := rfl
  have hframe := touches_stage c fs d
  rw [run_eq] at h
  match hst : c.stage fs d with
  | (.err e, d1) =>
    rw [hst] at hframe
    rw [Blk.bind_of_err hst] at h
    cases h
    exact ⟨⟨hframe.capacity, fun x _ hx => frame_below hframe hx⟩, by simp⟩
  | (.halted why, d1) =>
    rw [hst] at hframe
    rw [Blk.bind_of_halted hst] at h
    cases h
    exact ⟨⟨hframe.capacity, fun x _ hx => frame_below hframe hx⟩, by simp⟩
  | (.ok none, d1) =>
    rw [hst] at hframe
    rw [Blk.bind_of_ok hst] at h
    cases h
    refine ⟨⟨hframe.capacity, fun x _ hx => frame_below hframe hx⟩, fun fs' hfs' => ?_⟩
    cases hfs'
    exact ⟨.refl hwf hs, stage_none hst⟩
  | (.ok (some next), d1) =>
    rw [hst] at hframe
    rw [Blk.bind_of_ok hst] at h
    dsimp only at h
    have hcommit : Blk.Touches (fun x _ => x < 8) (fs.commit next) := by
      refine .bind (Blk.touches_writeSector ?_) fun _ => .pure _
      rcases cpSector_cases (1 - fs.slot) with h | h <;> omega
    have hframe' := hcommit d1
    rw [h] at hframe'
    refine ⟨⟨hframe'.capacity.trans hframe.capacity, fun x hlow hx => ?_⟩, fun fs' hfs' => ?_⟩
    · rw [← frame_below hframe hx]
      exact (hframe'.disk x).resolve_right (by omega)
    · subst hfs'
      obtain ⟨_, d2, -, hpure⟩ := Blk.bind_eq_ok h
      obtain ⟨hfs', -⟩ := Blk.pure_eq_ok hpure
      rw [hfs']
      exact ⟨follows_stage hwf hs hfit hst _, stage_live hwf hst⟩

end Call

end JungeyOs.Jlfs
