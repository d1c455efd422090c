import JungeyOs.Intents

/-!
# An intent that has been undone

Runs of the calls of `kernel/src/intent.rs`, lines 132–210, after an `undo` that returned `Ok`, with
other writes in between. `undo` turns away an intent that is `Undone`, and `commit` makes any
intent `Committed`.

Results:
* `refuses_iff`: `undo` is turned away exactly while the intent is `Undone`.
* `refuses_step_iff`: exactly which calls end that.
* `undone_for_good_iff`: the runs after an `undo` in which no other one gets through.
* `undo_removes_later_file`: a run in which one does, and destroys a file written in between.
-/

namespace JungeyOs.Intents

open JungeyOs.Jlfs JungeyOs.Dir

/-- `record` is a bare call, with any step; the others are those of `State.next`. -/
inductive Move
  | act (a : Act)
  | record (id : UInt64) (step : Step)

namespace State

def move (s : State) : Move → Option State
  | .act a => s.next a
  | .record id step => some { s with intents := Intents.record s.intents id step }

/-- Whatever the disk does, a call of `undo` is told that the intent is already undone, and leaves
the directory, the disk and the intents as they are. -/
def Refuses (id : UInt64) (s : State) : Prop :=
  ∀ writes, Intents.undo s.intents id s.fs (s.device writes) =
    (.ok (.error "already undone", s.fs, s.intents), s.device writes)

/-- The call is not a `commit` of the intent. -/
def NoCommit (id : UInt64) (_ : State) (m : Move) : Prop := m ≠ .act (.commit id)

end State

/-! ## What `undo` is turned away by -/

/-- The texts of `set_entry`'s errors. -/
theorem setEntry_err {fs : Fs} {name : String} {entry : Option FileEntry} {d d' : Device} {e : String}
    (h : fs.setEntry name entry d = (.err e, d')) :
    e = "directory is full" ∨ e = "block driver did not answer" := by
  have hcommit : ∀ next d, fs.commit next d = (.err e, d') → e = "block driver did not answer" := by
    intro next d h
    rw [Fs.commit] at h
    rcases Blk.writeSector_cases (CP_SECTORS (1 - fs.slot)) next.encode d with
      ⟨hwrite, -⟩ | ⟨x, rfl | rfl, hwrite | ⟨hwrite, -⟩⟩
    · rw [Blk.bind_of_ok hwrite] at h
      cases h
    · rw [Blk.bind_of_err hwrite] at h
      cases h
      rfl
    · rw [Blk.bind_of_err hwrite] at h
      cases h
      rfl
    · rw [Blk.bind_of_halted hwrite] at h
      cases h
    · rw [Blk.bind_of_halted hwrite] at h
      cases h
  rw [Fs.setEntry, Fs.stageEntry] at h
  rcases Blk.addU64_cases fs.cp.seq 1 d with ⟨seq, hadd, -⟩ | ⟨hadd, -⟩
  · rw [Blk.bind_assoc, Blk.bind_of_ok hadd] at h
    cases hfind : fs.find name with
    | some i =>
      cases entry <;> rw [hfind] at h <;> exact .inr (hcommit _ _ h)
    | none =>
      cases entry with
      | none =>
        rw [hfind] at h
        cases h
      | some new =>
        rw [hfind] at h
        dsimp only at h
        split_ifs at h
        · cases h
          exact .inl rfl
        · exact .inr (hcommit _ _ h)
  · rw [Blk.bind_assoc, Blk.bind_of_halted hadd] at h
    cases h

/-- An error that the loop passes on comes from `set_entry`. -/
theorem undoLoop_error {plan : List Step} {reversed refused : ℕ} {fs fs' : Fs} {d d' : Device}
    {e : String} (h : undoLoop plan reversed refused fs d = (.ok (.error e, fs'), d')) :
    e ≠ "already undone" := by
  induction plan generalizing reversed refused fs d with
  | nil => cases h
  | cons st plan ih =>
    rw [undoLoop] at h
    split_ifs at h with hu
    · exact ih h
    · obtain ⟨x, d1, hset, h⟩ := Blk.bind_eq_ok h
      cases x with
      | ok fs1 => exact ih h
      | error e' =>
        cases h
        unfold Blk.attempt at hset
        split at hset <;> cases hset
        next hrun =>
          rcases setEntry_err hrun with rfl | rfl <;> decide

namespace State

section

variable {s s' : State} {id : UInt64} {m : Move}

/-- `undo` is turned away exactly while the intent is `Undone`. -/
theorem refuses_iff {i : Intent} (hi : lookup Intent.id s.intents id = some i) :
    s.Refuses id ↔ i.state = .undone := by
  constructor
  · intro h
    by_contra hopen
    have hcall := h []
    rw [Intents.undo, hi] at hcall
    dsimp only at hcall
    rw [if_neg hopen] at hcall
    obtain ⟨⟨r, fs⟩, d, hloop, hcall⟩ := Blk.bind_eq_ok hcall
    cases r with
    | ok counts => cases hcall
    | error e =>
      have he : e = "already undone" := by
        cases hcall
        rfl
      exact undoLoop_error hloop he
  · intro hundone writes
    rw [Intents.undo, hi]
    dsimp only
    rw [if_pos hundone]
    rfl

/-- What a call makes of the state of an intent. -/
theorem move_state {i : Intent} (hi : lookup Intent.id s.intents id = some i)
    (hundone : i.state = .undone) (hm : s.move m = some s') :
    ∃ i', lookup Intent.id s'.intents id = some i' ∧
      (i'.state = .undone ↔ NoCommit id s m) := by
  have hrecord : ∀ (id' : UInt64) (step : Step), ∃ i',
      lookup Intent.id (Intents.record s.intents id' step) id = some i' ∧ i'.state = .undone := by
    intro id' step
    by_cases hid : id' = id
    · subst hid
      exact ⟨_, lookup_modify_self (f := fun i => { i with steps := i.steps ++ [step] }) rfl hi, hundone⟩
    · exact ⟨i, lookup_modify_ne hi hid fun _ => rfl, hundone⟩
  have hwrite : ∀ {t : State} {name data crashAfter writes},
      t.write name data crashAfter writes = some s' → s'.intents = t.intents := by
    intro t name data crashAfter writes hw
    unfold State.write at hw
    split at hw
    · cases hw
      rfl
    · cases hw
      rfl
    · cases hw
  cases m with
  | record id' step =>
    cases hm
    obtain ⟨i', hi', hstate⟩ := hrecord id' step
    exact ⟨i', hi', iff_of_true hstate (by simp [NoCommit])⟩
  | act a =>
    cases a with
    | start goal actor cap =>
      simp only [move, next] at hm
      split_ifs at hm
      cases hm
      refine ⟨i, ?_, iff_of_true hundone (by simp [NoCommit])⟩
      unfold lookup at hi ⊢
      rw [List.find?_append, hi]
      rfl
    | step id' op target data crashAfter writes =>
      obtain ⟨i', hi', hstate⟩ := hrecord id' ⟨op, target, s.fs.entry target, true⟩
      refine ⟨i', ?_, iff_of_true hstate (by simp [NoCommit])⟩
      rw [hwrite hm]
      exact hi'
    | note id' op target before =>
      cases hm
      obtain ⟨i', hi', hstate⟩ := hrecord id' ⟨op, target, before, false⟩
      exact ⟨i', hi', iff_of_true hstate (by simp [NoCommit])⟩
    | commit id' =>
      cases hm
      by_cases hid : id' = id
      · subst hid
        refine ⟨_, lookup_modify_self (f := fun i => { i with state := .committed }) rfl hi, ?_⟩
        simp [NoCommit]
      · exact ⟨i, lookup_modify_ne hi hid fun _ => rfl, iff_of_true hundone (by simpa [NoCommit])⟩
    | write name data crashAfter writes =>
      refine ⟨i, ?_, iff_of_true hundone (by simp [NoCommit])⟩
      rw [hwrite hm]
      exact hi
    | undo id' writes =>
      simp only [move, next] at hm
      split at hm
      · rename_i r fs all d hu
        cases hm
        have hkept : ∃ i', lookup Intent.id all id = some i' ∧ i'.state = .undone := by
          obtain ⟨-, -, rfl, -⟩ | ⟨j, -, -, rfl | rfl⟩ := undo_cases hu
          · exact ⟨i, hi, hundone⟩
          · exact ⟨i, hi, hundone⟩
          · by_cases hid : id' = id
            · subst hid
              exact ⟨_, lookup_modify_self (f := fun i => { i with state := .undone }) rfl hi, rfl⟩
            · exact ⟨i, lookup_modify_ne hi hid fun _ => rfl, hundone⟩
        obtain ⟨i', hi', hstate⟩ := hkept
        exact ⟨i', hi', iff_of_true hstate (by simp [NoCommit])⟩
      · cases hm

/-- Of the calls that come while an intent is undone, the `commit` of the intent is the one after
which `undo` is no longer turned away. -/
theorem refuses_step_iff {i : Intent} (hi : lookup Intent.id s.intents id = some i)
    (hr : s.Refuses id) (hm : s.move m = some s') : s'.Refuses id ↔ NoCommit id s m := by
  obtain ⟨i', hi', hstate⟩ := move_state hi ((refuses_iff hi).mp hr) hm
  rw [refuses_iff hi', hstate]

/-- An `undo` that returned `Ok` leaves the intent `Undone`. -/
theorem undo_undone {writes : List WriteFate} {counts : ℕ × ℕ} {fs : Fs} {all : List Intent}
    {d : Device} (h : undo s.intents id s.fs (s.device writes) = (.ok (.ok counts, fs, all), d)) :
    ∃ i, lookup Intent.id all id = some i ∧ i.state = .undone := by
  rw [Intents.undo] at h
  cases hl : lookup Intent.id s.intents id with
  | none =>
    rw [hl] at h
    cases h
  | some i =>
    rw [hl] at h
    dsimp only at h
    split_ifs at h with hundone
    · cases h
    · obtain ⟨⟨r, fs'⟩, d1, -, h⟩ := Blk.bind_eq_ok h
      cases r with
      | error e => cases h
      | ok counts' =>
        cases h
        exact ⟨_, lookup_modify_self (f := fun i => { i with state := .undone }) rfl hl, rfl⟩

end

end State

/-- After an `undo` that returned `Ok`, every later one returns `Err` and changes nothing, throughout
a run of calls, exactly when the intent is not committed again in the run. -/
theorem undone_for_good_iff {s : State} {id : UInt64} {writes : List WriteFate} {counts : ℕ × ℕ}
    {fs : Fs} {all : List Intent} {d : Device}
    (h : undo s.intents id s.fs (s.device writes) = (.ok (.ok counts, fs, all), d))
    (moves : List Move) :
    Run.Throughout State.move (State.Refuses id) { s with disk := d.disk, fs := fs, intents := all }
        moves ↔
      Run.Meets State.move (State.NoCommit id) { s with disk := d.disk, fs := fs, intents := all }
        moves := by
  obtain ⟨i, hi, hundone⟩ := State.undo_undone h
  refine Run.throughout_iff_meets
    (fun s => ∃ i, lookup Intent.id s.intents id = some i ∧ i.state = .undone)
    ?_ ?_ ?_ ⟨i, hi, hundone⟩ ((State.refuses_iff hi).mpr hundone) moves
  · rintro s m s' ⟨i, hi, hundone⟩ hok hm
    obtain ⟨i', hi', hstate⟩ := State.move_state hi hundone hm
    exact ⟨i', hi', hstate.mpr hok⟩
  · rintro s m s' ⟨i, hi, -⟩ hr hm
    exact State.refuses_step_iff hi hr hm
  · rintro s m - hm rfl
    cases hm

/-! ## A file written in between -/

theorem undo_recordedNotes :
    undo recordedNotes.intents 1 recordedNotes.fs (recordedNotes.device []) =
      (.ok (.ok (1, 0), recordedNotes.fs,
        modify recordedNotes.intents 1 fun i => { i with state := .undone }),
        recordedNotes.device []) := by
  refine undo_of_single (i := ⟨1, "rewrite the notes", "assistant", 0,
    [⟨"notes.rewrite", "notes", none, true⟩], .opened⟩) rfl (by decide) rfl rfl ?_
  obtain ⟨seq, hadd, -⟩ := Blk.addU64_of_lt (a := recordedNotes.fs.cp.seq) (b := 1) (by decide)
    (recordedNotes.device [])
  have hstage : recordedNotes.fs.stageEntry "notes" none (recordedNotes.device []) =
      (.ok none, recordedNotes.device []) := by
    rw [Fs.stageEntry, Blk.bind_of_ok hadd]
    rfl
  rw [Fs.setEntry, Blk.bind_of_ok hstage]
  rfl

/-- The intent of the notes, undone. -/
def undoneNotes : State :=
  { recordedNotes with intents := modify recordedNotes.intents 1 fun i => { i with state := .undone } }

/-- While nobody commits it, it stays undone. -/
theorem undone_for_good_notes : Run.Throughout State.move (State.Refuses 1) undoneNotes
    [.act (.undo 1 []), .act (.start "read the notes" "assistant" 0)] :=
  (undone_for_good_iff undo_recordedNotes _).mpr
    ⟨by simp [State.NoCommit], fun _ _ => ⟨by simp [State.NoCommit], fun _ _ => trivial⟩⟩

/-- The intent is committed, somebody writes the notes, and a second `undo` removes them. -/
theorem undo_removes_later_file : ∃ (s : State) (fs : Fs) (all : List Intent) (d : Device),
    undo recordedNotes.intents 1 recordedNotes.fs (recordedNotes.device []) =
        (.ok (.ok (1, 0), undoneNotes.fs, undoneNotes.intents), recordedNotes.device []) ∧
      Run.exec State.move undoneNotes [.act (.commit 1), .act (.write "notes" [1, 2, 3] none [.ok])] =
        some s ∧
      s.fs.entry "notes" ≠ none ∧
      undo s.intents 1 s.fs (s.device []) = (.ok (.ok (1, 0), fs, all), d) ∧
      fs.entry "notes" = none := by
  obtain ⟨fs₁, d₁, hwrite, hentry, hseq⟩ := write_notes
  generalize hcommitted : ({ undoneNotes with intents := commit undoneNotes.intents 1 } : State) = s₂
  have hw : s₂.write "notes" [1, 2, 3] none [.ok] = some { s₂ with disk := d₁.disk, fs := fs₁ } := by
    subst hcommitted
    exact State.write_of_ok hwrite
  have hlook : lookup Intent.id s₂.intents 1 = some ⟨1, "rewrite the notes", "assistant", 0,
      [⟨"notes.rewrite", "notes", none, true⟩], .committed⟩ := by
    subst hcommitted
    rfl
  have hempty : s₂.fs.entry "notes" = none := by
    subst hcommitted
    exact entry_booted "notes"
  have hcapacity : s₂.capacity = booted.capacity := by
    subst hcommitted
    rfl
  have hsound : s₂.Sound := by
    subst hcommitted
    have hbegun := State.sound_reachable reachable_begun
    refine ⟨hbegun.wf, hbegun.sound, ?_⟩
    have hall : (commit undoneNotes.intents 1) = [⟨1, "rewrite the notes", "assistant", 0,
      [⟨"notes.rewrite", "notes", none, true⟩], .committed⟩] := rfl
    intro i hi
    rw [hall, List.mem_singleton] at hi
    subst hi
    constructor <;>
    · intro st hst _ e he
      rw [List.mem_singleton.mp hst] at he
      cases he
  obtain ⟨i, hfind⟩ : ∃ i, fs₁.find "notes" = some i := by
    cases hfind : fs₁.find "notes" with
    | none => exact absurd (by rw [Fs.entry, hfind]; rfl) hentry
    | some i => exact ⟨i, rfl⟩
  obtain ⟨fs₂, d₃, hset⟩ := setEntry_remove hfind hseq
    (d := State.device { s₂ with disk := d₁.disk, fs := fs₁ } []) rfl
    (hcapacity ▸ cpSector_booted (1 - fs₁.slot))
  have hundo := undo_of_single hlook (by decide) rfl rfl hset
  refine ⟨{ s₂ with disk := d₁.disk, fs := fs₁ }, fs₂, _, d₃, undo_recordedNotes, ?_, hentry, hundo, ?_⟩
  · show (State.move undoneNotes (.act (.commit 1))).bind _ = _
    rw [show State.move undoneNotes (.act (.commit 1)) = some s₂ from congrArg some hcommitted,
      Option.bind_some]
    show (s₂.write "notes" [1, 2, 3] none [.ok]).bind _ = _
    rw [hw]
    rfl
  · have hsound' := hsound.write hw
    rw [Fs.entry_eq] at hempty
    have hrare := rare_write hsound hw (.inl (by decide)) (rare_of_none hempty)
    obtain ⟨-, -, ⟨-, hnot⟩ | ⟨j, done, hj, -, hlive, hall⟩⟩ := State.undo_effect hsound' hundo
    · exact absurd rfl (hnot (1, 0))
    · cases hlook.symm.trans hj
      have hnamed := (hsound'.recorded _ (mem_of_lookup hlook)).1
      rw [Fs.entry_eq, hlive, hall (1, 0) rfl]
      exact applyAll_lookup hnamed rfl fun _ => hrare

end JungeyOs.Intents
