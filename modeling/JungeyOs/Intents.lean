import JungeyOs.Jlfs.Directory

/-!
# Transactional intents

Model of `kernel/src/intent.rs`, lines 101–200, and of the files it puts back. A
step of an intent records the directory entry of its target before it writes the
target; `undo` replays the records from the newest to the oldest with
`Fs::set_entry`. Other intents and other writes go on meanwhile, and an `undo` may
stop part-way on a write error and be called again.

Results:
* `undoLoop_undoes`: an undo that returns `Ok` leaves the directory that its plan makes.
* `applyAll_lookup`: replaying the records leads a name to the entry that its first
  record holds.
* `tracked_step`: what a step keeps of one name that only the intent touches.
* `undo_restores`: an undo that returns `Ok` gives back every name as it was.
-/

namespace JungeyOs.Intents

open JungeyOs.Jlfs JungeyOs.Dir

/-- `IntentState` (lines 101–106). -/
inductive IntentState
  | opened
  | committed
  | undone
  deriving DecidableEq

/-- `Step` (lines 108–116). -/
structure Step where
  op : String
  target : String
  before : Option FileEntry
  undoable : Bool

/-- `Intent` (lines 118–127). -/
structure Intent where
  id : UInt64
  goal : String
  actor : String
  cap : UInt64
  steps : List Step
  state : IntentState

/-- `if let Some(i) = all.iter_mut().find(|i| i.id == id)`. -/
def modify (all : List Intent) (id : UInt64) (f : Intent → Intent) : List Intent :=
  match lookup Intent.id all id with
  | some i => put Intent.id all id (f i)
  | none => all

/-- `record` (lines 151–165). -/
def record (all : List Intent) (id : UInt64) (step : Step) : List Intent :=
  modify all id fun i => { i with steps := i.steps ++ [step] }

/-- `commit` (lines 167–172). -/
def commit (all : List Intent) (id : UInt64) : List Intent :=
  modify all id fun i => { i with state := .committed }

/-- The loop of `undo` (lines 194–203). A call that fails leaves `fs` as it was. -/
def undoLoop : List Step → (reversed refused : ℕ) → Fs → Blk (Except String (ℕ × ℕ) × Fs)
  | [], reversed, refused, fs => pure (.ok (reversed, refused), fs)
  | s :: plan, reversed, refused, fs =>
    if s.undoable = false then undoLoop plan reversed (refused + 1) fs
    else do
      match ← Blk.attempt (fs.setEntry s.target s.before) with
      | .error e => pure (.error e, fs)
      | .ok fs => undoLoop plan (reversed + 1) refused fs

/-- `undo` (lines 179–210), with `fs` and the intents as it leaves them. -/
def undo (all : List Intent) (id : UInt64) (fs : Fs) :
    Blk (Except String (ℕ × ℕ) × Fs × List Intent) :=
  match lookup Intent.id all id with
  | none => pure (.error "no such intent", fs, all)
  | some i =>
    if i.state = .undone then pure (.error "already undone", fs, all)
    else do
      let r ← undoLoop i.steps.reverse 0 0 fs
      match r.1 with
      | .error e => pure (.error e, r.2, all)
      | .ok counts => pure (.ok counts, r.2, modify all id fun i => { i with state := .undone })

/-! ## The system -/

/-- The disk, the mounted filesystem, and the intents. -/
structure State where
  capacity : ℕ
  disk : Disk
  fs : Fs
  intents : List Intent
  nextId : UInt64

inductive Act
  /-- `begin` (lines 132–146). -/
  | start (goal actor : String) (cap : UInt64)
  /-- `record(id, op, target, fs.entry(target), true)`, then `Fs::write` to the target. -/
  | step (id : UInt64) (op target : String) (data : List UInt8) (crashAfter : Option UInt32)
    (writes : List WriteFate)
  /-- `record` of a step that cannot be undone. -/
  | note (id : UInt64) (op target : String) (before : Option FileEntry)
  | commit (id : UInt64)
  /-- An `Fs::write` of somebody else. -/
  | write (name : String) (data : List UInt8) (crashAfter : Option UInt32)
    (writes : List WriteFate)
  | undo (id : UInt64) (writes : List WriteFate)

namespace State

/-- The disk with the given fates for the writes to come; reads go well. -/
def device (s : State) (writes : List WriteFate) : Device :=
  { capacity := s.capacity, disk := s.disk, writes := writes }

/-- `Fs::write` in place: `self` changes only where the call returns `Ok`. -/
def write (s : State) (name : String) (data : List UInt8) (crashAfter : Option UInt32)
    (writes : List WriteFate) : Option State :=
  match s.fs.write name data crashAfter (s.device writes) with
  | (.ok fs, d) => some { s with disk := d.disk, fs := fs }
  | (.err _, d) => some { s with disk := d.disk }
  | (.halted _, _) => none

/-- One action; none follows where the machine stops. -/
def next (s : State) : Act → Option State
  | .start goal actor cap =>
    if s.nextId.toNat + 1 < 2 ^ 64 then
      some { s with
        intents := s.intents ++ [⟨s.nextId, goal, actor, cap, [], .opened⟩], nextId := s.nextId + 1 }
    else none
  | .step id op target data crashAfter writes =>
    { s with intents := record s.intents id ⟨op, target, s.fs.entry target, true⟩ }.write target data
      crashAfter writes
  | .note id op target before =>
    some { s with intents := record s.intents id ⟨op, target, before, false⟩ }
  | .commit id => some { s with intents := Intents.commit s.intents id }
  | .write name data crashAfter writes => s.write name data crashAfter writes
  | .undo id writes =>
    match undo s.intents id s.fs (s.device writes) with
    | (.ok (_, fs, all), d) => some { s with disk := d.disk, fs := fs, intents := all }
    | _ => none

/-- A machine that has just mounted its filesystem, whatever happened to the disk
before. -/
def Boot (s : State) : Prop :=
  (∃ w, Run.Reachable World.step Run.always World.Fresh w ∧ w.mounted = some s.fs ∧
    w.capacity = s.capacity ∧ w.disk = s.disk) ∧ s.intents = []

/-- What a file looks like: its directory entry, and what reading it gives. -/
def view (s : State) (name : String) : Option FileEntry × (List UInt8 → Exit (ℕ × List UInt8)) :=
  (s.fs.entry name, fun out => (s.fs.read name out (s.device [])).1)

end State

/-! ## Replaying the records -/

/-- What undoing one step makes of the directory. -/
def apply (l : List FileEntry) (s : Step) : List FileEntry :=
  if s.undoable = false then l
  else match s.before with
    | some e => put FileEntry.nameStr l s.target e
    | none => remove FileEntry.nameStr l s.target

/-- The first undoable step on a name. -/
def firstOn (steps : List Step) (n : String) : Option Step :=
  steps.find? fun s => s.undoable && s.target == n

/-- Every entry recorded is one of the target's name. -/
def Named (steps : List Step) : Prop :=
  ∀ s ∈ steps, s.undoable = true → ∀ e, s.before = some e → e.nameStr = s.target

section Replay

variable {l : List FileEntry} {steps : List Step} {s : Step} {n : String}

theorem apply_lookup_ne (hname : s.undoable = true → ∀ e, s.before = some e → e.nameStr = s.target)
    (hn : s.undoable = true → s.target ≠ n) :
    lookup FileEntry.nameStr (apply l s) n = lookup FileEntry.nameStr l n := by
  unfold apply
  by_cases hu : s.undoable = false
  · rw [if_pos hu]
  · rw [if_neg hu]
    have hu' : s.undoable = true := by simpa using hu
    have hne := hn hu'
    cases hb : s.before with
    | some e => exact lookup_put_ne (by rw [hname hu' e hb]; exact hne) hne
    | none => exact lookup_remove_ne hne.symm

theorem apply_rare (hname : s.undoable = true → ∀ e, s.before = some e → e.nameStr = s.target)
    (h : Rare FileEntry.nameStr l n) : Rare FileEntry.nameStr (apply l s) n := by
  unfold apply
  by_cases hu : s.undoable = false
  · rw [if_pos hu]
    exact h
  · rw [if_neg hu]
    cases hb : s.before with
    | some e => exact h.put (.inl (hname (by simpa using hu) e hb))
    | none => exact h.remove

/-- The directory after the steps of a plan are undone. -/
def applyAll (l : List FileEntry) (plan : List Step) : List FileEntry := plan.foldl apply l

theorem firstOn_concat (steps : List Step) (s : Step) (n : String) :
    firstOn (steps ++ [s]) n =
      (firstOn steps n).or (if s.undoable = true ∧ s.target = n then some s else none) := by
  by_cases hs : s.undoable = true ∧ s.target = n <;> simp [firstOn, hs]

theorem applyAll_concat (l : List FileEntry) (plan : List Step) (s : Step) :
    applyAll l (plan ++ [s]) = apply (applyAll l plan) s := by
  simp [applyAll]

theorem Named.mono {plan : List Step} (h : Named steps) (hsub : ∀ s ∈ plan, s ∈ steps) :
    Named plan := fun s hs => h s (hsub s hs)

theorem applyAll_cons (l : List FileEntry) (s : Step) (plan : List Step) :
    applyAll l (s :: plan) = applyAll (apply l s) plan := rfl

theorem applyAll_lookup_ne (hname : Named steps)
    (hn : ∀ s ∈ steps, s.undoable = true → s.target ≠ n) :
    lookup FileEntry.nameStr (applyAll l steps) n = lookup FileEntry.nameStr l n := by
  induction steps generalizing l with
  | nil => rfl
  | cons s steps ih =>
    have hrest := ih (l := apply l s) (hname.mono fun t ht => List.mem_cons_of_mem _ ht)
      fun t ht => hn t (List.mem_cons_of_mem _ ht)
    rw [applyAll_cons, hrest, apply_lookup_ne (hname s List.mem_cons_self) (hn s List.mem_cons_self)]

theorem applyAll_rare (hname : Named steps) (h : Rare FileEntry.nameStr l n) :
    Rare FileEntry.nameStr (applyAll l steps) n := by
  induction steps generalizing l with
  | nil => exact h
  | cons s steps ih =>
    rw [applyAll_cons]
    exact ih (hname.mono fun t ht => List.mem_cons_of_mem _ ht)
      (apply_rare (hname s List.mem_cons_self) h)

/-- Replaying the records from the newest to the oldest leads a name to the entry
that its first record holds. -/
theorem applyAll_lookup (hname : Named steps) (hfirst : firstOn steps n = some s)
    (hrare : s.before = none → Rare FileEntry.nameStr l n) :
    lookup FileEntry.nameStr (applyAll l steps.reverse) n = s.before := by
  induction steps with
  | nil => simp [firstOn] at hfirst
  | cons t steps ih =>
    have hrest : Named steps := hname.mono fun t ht => List.mem_cons_of_mem _ ht
    rw [List.reverse_cons, applyAll_concat]
    by_cases ht : t.undoable = true ∧ t.target = n
    · -- the first step on the name is the last one that is undone
      obtain ⟨hu, htarget⟩ := ht
      have hts : t = s := by simpa [firstOn, hu, htarget] using hfirst
      subst hts
      unfold apply
      rw [if_neg (by simp [hu]), htarget]
      cases hb : t.before with
      | some e =>
        have hkey : e.nameStr = n := (hname t List.mem_cons_self hu e hb).trans htarget
        exact lookup_put_self hkey
      | none =>
        refine lookup_remove_self (applyAll_rare (hrest.mono ?_) (hrare hb))
        simp
    · have hfirst' : firstOn steps n = some s := by
        simpa [firstOn, List.find?_cons, ht] using hfirst
      rw [apply_lookup_ne (hname t List.mem_cons_self) fun hu htarget => ht ⟨hu, htarget⟩]
      exact ih hrest hfirst'

end Replay

/-! ## What an undo does to the filesystem -/

/-- The entries recorded lie in the log. -/
def Fit (steps : List Step) (fs : Fs) : Prop :=
  ∀ s ∈ steps, s.undoable = true → ∀ e, s.before = some e → e.Within fs.cp.logHead.toNat

theorem Fit.mono {steps plan : List Step} {fs fs' : Fs} (h : Fit steps fs)
    (hsub : ∀ s ∈ plan, s ∈ steps) (hhead : fs.cp.logHead.toNat ≤ fs'.cp.logHead.toNat) :
    Fit plan fs' := fun s hs hu e he => (h s (hsub s hs) hu e he).mono hhead

theorem directory_setEntry {fs : Fs} {s : Step} (hu : s.undoable = true) :
    (Call.setEntry s.target s.before).directory fs = apply fs.cp.live s := by
  unfold apply
  rw [if_neg (by simp [hu])]
  cases s.before <;> rfl

/-- What was undone when the loop ended, and that nothing else was touched. -/
structure Undoes (plan : List Step) (fs fs' : Fs) (d d' : Device)
    (r : Except String (ℕ × ℕ)) : Prop where
  log : Call.SameLog fs d d'
  follows : Call.Follows fs fs'
  live : ∃ done, done <+: plan ∧ fs'.cp.live = applyAll fs.cp.live done ∧
    ∀ counts, r = .ok counts → done = plan

theorem undoLoop_undoes {plan : List Step} {reversed refused : ℕ} {fs fs' : Fs} {d d' : Device}
    {r : Except String (ℕ × ℕ)} (hwf : fs.cp.WF) (hs : fs.cp.Sound) (hfit : Fit plan fs)
    (h : undoLoop plan reversed refused fs d = (.ok (r, fs'), d')) : Undoes plan fs fs' d d' r := by
  induction plan generalizing reversed refused fs d with
  | nil =>
    obtain ⟨heq, rfl⟩ := Blk.pure_eq_ok h
    cases heq
    exact ⟨⟨rfl, fun _ _ _ => rfl⟩, .refl hwf hs, [], List.prefix_refl _, rfl, fun _ _ => rfl⟩
  | cons s plan ih =>
    rw [undoLoop] at h
    by_cases hu : s.undoable = false
    · rw [if_pos hu] at h
      obtain ⟨hlog, hfollows, done, hdone, hlive, hall⟩ :=
        ih hwf hs (hfit.mono (fun t ht => List.mem_cons_of_mem _ ht) (Nat.le_refl _)) h
      refine ⟨hlog, hfollows, s :: done, ?_, ?_, fun counts hr => by rw [hall counts hr]⟩
      · exact (List.prefix_cons_inj s).mpr hdone
      · rw [hlive, applyAll, applyAll, List.foldl_cons, apply, if_pos hu]
    · rw [if_neg hu] at h
      have hu' : s.undoable = true := by simpa using hu
      have hfits : (Call.setEntry s.target s.before).Fits fs := by
        cases hb : s.before with
        | none => trivial
        | some e => exact hfit s List.mem_cons_self hu' e hb
      obtain ⟨x, d1, hset, h⟩ := Blk.bind_eq_ok h
      cases x with
      | error e =>
        obtain ⟨heq, rfl⟩ := Blk.pure_eq_ok h
        cases heq
        refine ⟨?_, .refl hwf hs, [], List.nil_prefix, rfl, by simp⟩
        unfold Blk.attempt at hset
        split at hset <;> cases hset
        next e hrun => exact (Call.effect hwf hs hfits hrun).1
      | ok fs1 =>
        obtain ⟨hlog1, hok⟩ := Call.effect hwf hs hfits (Blk.attempt_eq_ok hset)
        obtain ⟨hfollows1, hlive1⟩ := hok fs1 rfl
        rw [directory_setEntry hu'] at hlive1
        obtain ⟨hlog, hfollows, done, hdone, hlive, hall⟩ := ih hfollows1.wf hfollows1.sound
          (hfit.mono (fun t ht => List.mem_cons_of_mem _ ht) hfollows1.head) h
        refine ⟨⟨hlog.capacity.trans hlog1.capacity, fun x hlow hx => ?_⟩, hfollows1.trans hfollows,
          s :: done, ?_, ?_, fun counts hr => by rw [hall counts hr]⟩
        · rw [hlog.disk x hlow (Nat.lt_of_lt_of_le hx hfollows1.head), hlog1.disk x hlow hx]
        · exact (List.prefix_cons_inj s).mpr hdone
        · rw [hlive, hlive1]
          rfl

/-! ## The registry -/

section Registry

variable {all : List Intent} {id me : UInt64} {i : Intent} {f : Intent → Intent}

theorem lookup_modify_self (hf : (f i).id = i.id) (h : lookup Intent.id all id = some i) :
    lookup Intent.id (modify all id f) id = some (f i) := by
  rw [modify, h]
  exact lookup_put_self (hf.trans (key_of_lookup h))

theorem lookup_modify_ne (h : lookup Intent.id all me = some i) (hne : id ≠ me)
    (hf : ∀ i, (f i).id = i.id) : lookup Intent.id (modify all id f) me = some i := by
  rw [← h]
  unfold modify
  cases hl : lookup Intent.id all id with
  | none => rfl
  | some j => exact lookup_put_ne (by rw [hf, key_of_lookup hl]; exact hne) hne

theorem mem_modify {x : Intent} (h : x ∈ modify all id f) :
    x ∈ all ∨ ∃ i ∈ all, lookup Intent.id all id = some i ∧ x = f i := by
  unfold modify at h
  cases hl : lookup Intent.id all id with
  | none =>
    rw [hl] at h
    exact .inl h
  | some i =>
    rw [hl] at h
    rcases mem_put h with rfl | hx
    · exact .inr ⟨i, mem_of_lookup hl, rfl, rfl⟩
    · exact .inl (remove_sublist.subset hx)

/-- What `undo` hands back, by what its loop did. -/
theorem undo_cases {fs fs' : Fs} {d d' : Device} {r : Except String (ℕ × ℕ)} {all' : List Intent}
    (h : undo all id fs d = (.ok (r, fs', all'), d')) :
    (d' = d ∧ fs' = fs ∧ all' = all ∧ ∀ counts, r ≠ .ok counts) ∨
      ∃ i, lookup Intent.id all id = some i ∧
        undoLoop i.steps.reverse 0 0 fs d = (.ok (r, fs'), d') ∧
        (all' = all ∨ all' = modify all id fun i => { i with state := .undone }) := by
  unfold undo at h
  cases hl : lookup Intent.id all id with
  | none =>
    rw [hl] at h
    obtain ⟨heq, rfl⟩ := Blk.pure_eq_ok h
    cases heq
    exact .inl ⟨rfl, rfl, rfl, by simp⟩
  | some i =>
    rw [hl] at h
    dsimp only at h
    by_cases hu : i.state = .undone
    · rw [if_pos hu] at h
      obtain ⟨heq, rfl⟩ := Blk.pure_eq_ok h
      cases heq
      exact .inl ⟨rfl, rfl, rfl, by simp⟩
    · rw [if_neg hu] at h
      obtain ⟨⟨x, fs1⟩, d1, hloop, h⟩ := Blk.bind_eq_ok h
      refine .inr ⟨i, rfl, ?_⟩
      cases x with
      | error e =>
        obtain ⟨heq, rfl⟩ := Blk.pure_eq_ok h
        cases heq
        exact ⟨hloop, .inl rfl⟩
      | ok counts =>
        obtain ⟨heq, rfl⟩ := Blk.pure_eq_ok h
        cases heq
        exact ⟨hloop, .inr rfl⟩

end Registry

/-! ## Every step -/

namespace State

/-- `s'` comes after `s`: its filesystem is sound, its log goes on where that of `s`
ends, and what is below is unchanged. -/
structure Continues (s s' : State) : Prop where
  capacity : s'.capacity = s.capacity
  follows : Call.Follows s.fs s'.fs
  disk : ∀ x, LOG_START.toNat ≤ x → x < s.fs.cp.logHead.toNat → s'.disk x = s.disk x

theorem Continues.trans {s s' s'' : State} (h : Continues s s') (h' : Continues s' s'') :
    Continues s s'' := by
  refine ⟨h'.capacity.trans h.capacity, h.follows.trans h'.follows, fun x hlow hx => ?_⟩
  rw [h'.disk x hlow (Nat.lt_of_lt_of_le hx h.follows.head), h.disk x hlow hx]

/-- The filesystem is sound, and what the intents recorded can be put back. -/
structure Sound (s : State) : Prop where
  wf : s.fs.cp.WF
  sound : s.fs.cp.Sound
  recorded : ∀ i ∈ s.intents, Named i.steps ∧ Fit i.steps s.fs

/-- How a name is stored in a directory entry. -/
def storedAs (name : String) : String := (Fs.newEntry name [] 0 0).nameStr

/-- What a write does: the directory stays or gets the one entry. -/
theorem write_effect {s s' : State} (h : s.Sound) {name : String} {data : List UInt8}
    {crashAfter : Option UInt32} {writes : List WriteFate}
    (hw : s.write name data crashAfter writes = some s') :
    s'.intents = s.intents ∧ Continues s s' ∧
      (s'.fs.cp.live = s.fs.cp.live ∨ ∃ e, (e.nameStr = storedAs name ∧
        (e.nameStr = name ∨ lookup FileEntry.nameStr s.fs.cp.live name = none)) ∧
        (0 ∉ asBytes name → e.nameStr = name) ∧
        s'.fs.cp.live = put FileEntry.nameStr s.fs.cp.live name e) := by
  unfold State.write at hw
  match hrun : s.fs.write name data crashAfter (s.device writes) with
  | (.halted why, d) =>
    rw [hrun] at hw
    cases hw
  | (.err e, d) =>
    rw [hrun] at hw
    cases hw
    obtain ⟨hlog, -⟩ := Call.effect (c := .write name data crashAfter) h.wf h.sound trivial hrun
    exact ⟨rfl, ⟨rfl, .refl h.wf h.sound, hlog.disk⟩, .inl rfl⟩
  | (.ok fs, d) =>
    rw [hrun] at hw
    cases hw
    obtain ⟨hlog, hok⟩ := Call.effect (c := .write name data crashAfter) h.wf h.sound trivial hrun
    obtain ⟨hfollows, hlive⟩ := hok fs rfl
    obtain ⟨next, d1, hstage, -⟩ := Blk.bind_eq_ok hrun
    have hacc := Fs.stageWrite_accepts hstage
    exact ⟨rfl, ⟨rfl, hfollows, hlog.disk⟩,
      .inr ⟨Fs.newEntry name data s.fs.cp.logHead (Fs.sectorsOf data),
        ⟨rfl, Fs.newEntry_name hacc _ _⟩, Fs.nameStr_newEntry hacc.1, hlive⟩⟩

theorem Sound.write {s s' : State} (h : s.Sound) {name : String} {data : List UInt8}
    {crashAfter : Option UInt32} {writes : List WriteFate}
    (hw : s.write name data crashAfter writes = some s') : s'.Sound := by
  obtain ⟨hint, hc, -⟩ := write_effect h hw
  refine ⟨hc.follows.wf, hc.follows.sound, fun i hi => ?_⟩
  obtain ⟨hnamed, hfit⟩ := h.recorded i (hint ▸ hi)
  exact ⟨hnamed, hfit.mono (fun _ hs => hs) hc.follows.head⟩

/-- Recording a step of which nothing but the entry of its target is put back. -/
theorem Sound.record {s : State} (h : s.Sound) (id : UInt64) (step : Step)
    (hstep : step.undoable = true → step.before = s.fs.entry step.target) :
    Sound { s with intents := record s.intents id step } := by
  refine ⟨h.wf, h.sound, fun i hi => ?_⟩
  rcases mem_modify hi with hi | ⟨i₀, hi₀, -, rfl⟩
  · exact h.recorded i hi
  · obtain ⟨hnamed, hfit⟩ := h.recorded i₀ hi₀
    have hentry : step.undoable = true → ∀ e, step.before = some e →
        e.nameStr = step.target ∧ e.Within s.fs.cp.logHead.toNat := fun hu e he => by
      rw [hstep hu] at he
      obtain ⟨hname, hlive⟩ := Fs.entry_eq_some h.wf he
      exact ⟨hname, h.sound.within e hlive⟩
    constructor
    · intro st hst hu e he
      rcases List.mem_append.mp hst with hst | hst
      · exact hnamed st hst hu e he
      · rw [List.mem_singleton.mp hst] at hu he ⊢
        exact (hentry hu e he).1
    · intro st hst hu e he
      rcases List.mem_append.mp hst with hst | hst
      · exact hfit st hst hu e he
      · rw [List.mem_singleton.mp hst] at hu he
        exact (hentry hu e he).2

/-- A change of the intents that leaves their steps alone. -/
theorem Sound.of_steps {s s' : State} (h : s.Sound) (hfs : s'.fs = s.fs)
    (hall : ∀ i ∈ s'.intents, i.steps = [] ∨ ∃ i₀ ∈ s.intents, i.steps = i₀.steps) : s'.Sound := by
  refine ⟨hfs ▸ h.wf, hfs ▸ h.sound, fun i hi => ?_⟩
  rcases hall i hi with hnil | ⟨i₀, hi₀, hsteps⟩
  · rw [hnil]
    exact ⟨fun _ hs => absurd hs List.not_mem_nil, fun _ hs => absurd hs List.not_mem_nil⟩
  · rw [hsteps, hfs]
    exact h.recorded i₀ hi₀

theorem mem_start {s : State} {i : Intent} {new : Intent} (h : i ∈ s.intents ++ [new]) :
    i ∈ s.intents ∨ i = new := by
  simpa using h

/-- What an undo does to the state. -/
theorem undo_effect {s : State} (h : s.Sound) {id : UInt64} {writes : List WriteFate}
    {r : Except String (ℕ × ℕ)} {fs : Fs} {all : List Intent} {d : Device}
    (hu : undo s.intents id s.fs (s.device writes) = (.ok (r, fs, all), d)) :
    Continues s { s with disk := d.disk, fs := fs, intents := all } ∧
      (∀ i ∈ all, ∃ i₀ ∈ s.intents, i.steps = i₀.steps) ∧
      (fs.cp.live = s.fs.cp.live ∧ (∀ counts, r ≠ .ok counts) ∨
        ∃ i done, lookup Intent.id s.intents id = some i ∧ done <+: i.steps.reverse ∧
          fs.cp.live = applyAll s.fs.cp.live done ∧
          ∀ counts, r = .ok counts → done = i.steps.reverse) := by
  rcases undo_cases hu with ⟨rfl, rfl, rfl, hr⟩ | ⟨i, hl, hloop, hall⟩
  · exact ⟨⟨rfl, .refl h.wf h.sound, fun _ _ _ => rfl⟩, fun i hi => ⟨i, hi, rfl⟩, .inl ⟨rfl, hr⟩⟩
  · have hfit : Fit i.steps.reverse s.fs :=
      (h.recorded i (mem_of_lookup hl)).2.mono (by simp) (Nat.le_refl _)
    obtain ⟨hlog, hfollows, done, hdone, hlive, hok⟩ := undoLoop_undoes h.wf h.sound hfit hloop
    refine ⟨⟨rfl, hfollows, hlog.disk⟩, fun j hj => ?_, .inr ⟨i, done, hl, hdone, hlive, hok⟩⟩
    rcases hall with rfl | rfl
    · exact ⟨j, hj, rfl⟩
    · rcases mem_modify hj with hj | ⟨i₀, hi₀, -, rfl⟩
      · exact ⟨j, hj, rfl⟩
      · exact ⟨i₀, hi₀, rfl⟩

theorem sound_next {s s' : State} (h : s.Sound) {a : Act} (hs : s.next a = some s') : s'.Sound := by
  cases a with
  | start goal actor cap =>
    simp only [next] at hs
    split_ifs at hs
    cases hs
    refine h.of_steps rfl fun i hi => ?_
    rcases mem_start hi with hi | rfl
    · exact .inr ⟨i, hi, rfl⟩
    · exact .inl rfl
  | step id op target data crashAfter writes =>
    exact Sound.write (h.record id ⟨op, target, s.fs.entry target, true⟩ fun _ => rfl) hs
  | note id op target before =>
    cases hs
    exact h.record id _ fun hu => by cases hu
  | commit id =>
    cases hs
    refine h.of_steps rfl fun i hi => .inr ?_
    rcases mem_modify hi with hi | ⟨i₀, hi₀, -, rfl⟩
    · exact ⟨i, hi, rfl⟩
    · exact ⟨i₀, hi₀, rfl⟩
  | write name data crashAfter writes => exact h.write hs
  | undo id writes =>
    simp only [next] at hs
    split at hs
    · rename_i r fs all d hu
      cases hs
      obtain ⟨hc, hsteps, -⟩ := undo_effect h hu
      refine ⟨hc.follows.wf, hc.follows.sound, fun i hi => ?_⟩
      obtain ⟨i₀, hi₀, hsame⟩ := hsteps i hi
      obtain ⟨hnamed, hfit⟩ := h.recorded i₀ hi₀
      rw [hsame]
      exact ⟨hnamed, hfit.mono (fun _ hs => hs) hc.follows.head⟩
    · cases hs

theorem sound_boot {s : State} (h : s.Boot) : s.Sound := by
  obtain ⟨⟨w, hw, hm, -, -⟩, hnil⟩ := h
  have hinv : Inv True w := hw.invariant (Inv True) (fun w hf => ⟨_, _, layout_fresh hf⟩)
    fun w a w' hi _ hs => inv_step hi (fun _ _ _ _ => trivial) hs
  obtain ⟨slot, cp, hl⟩ := hinv
  have hfs := hl.mounted s.fs hm
  have hcp : s.fs.cp = cp := by
    rw [hfs]
    rfl
  exact ⟨hcp ▸ hl.wf, hcp ▸ hl.sound, by simp [hnil]⟩

theorem sound_reachable {s : State} (h : Run.Reachable next Run.always Boot s) : s.Sound :=
  h.invariant Sound (fun _ => sound_boot) fun _ _ _ hs _ hn => sound_next hs hn

end State

/-! ## One name that only one intent touches -/

/-- Nothing but the steps of intent `me` writes the name `n`; the steps of `me` use
names without NUL bytes. -/
def Undisturbed (me : UInt64) (n : String) (s : State) : Act → Prop
  | .step id _ target _ _ _ =>
    if id = me then 0 ∉ asBytes target else target ≠ n ∧ State.storedAs target ≠ n
  | .write name _ _ _ => name ≠ n ∧ State.storedAs name ≠ n
  | .undo id _ => id = me ∨ ∀ i, lookup Intent.id s.intents id = some i →
      ∀ st ∈ i.steps, st.undoable = true → st.target ≠ n
  | _ => True

/-- Since `s₁` only intent `me` has touched the name `n`, and what it recorded leads
back to `s₁`. -/
structure Tracked (me : UInt64) (n : String) (s₁ s : State) : Prop where
  continues : State.Continues s₁ s
  recorded : ∃ i, lookup Intent.id s.intents me = some i ∧
    (firstOn i.steps n = none ∧ s.fs.entry n = s₁.fs.entry n ∨
      ∃ st, firstOn i.steps n = some st ∧ st.before = s₁.fs.entry n)
  rare : s₁.fs.entry n = none → Rare FileEntry.nameStr s.fs.cp.live n

section Tracked

variable {me : UInt64} {n : String} {s₁ s s' : State}

/-- A write under another name leads `n` where it led before. -/
theorem lookup_write (h : s.Sound) {name : String} {data : List UInt8} {crashAfter : Option UInt32}
    {writes : List WriteFate} (hw : s.write name data crashAfter writes = some s') (hn : name ≠ n)
    (hstored : 0 ∉ asBytes name ∨ State.storedAs name ≠ n) :
    lookup FileEntry.nameStr s'.fs.cp.live n = lookup FileEntry.nameStr s.fs.cp.live n := by
  obtain ⟨-, -, hlive | ⟨e, ⟨hkey, -⟩, hnul, hlive⟩⟩ := State.write_effect h hw
  · rw [hlive]
  · rw [hlive]
    refine lookup_put_ne ?_ hn
    rcases hstored with h0 | hne
    · rw [hnul h0]
      exact hn
    · rw [hkey]
      exact hne

/-- A write does not make a second entry of a name. -/
theorem rare_write (h : s.Sound) {name : String} {data : List UInt8} {crashAfter : Option UInt32}
    {writes : List WriteFate} (hw : s.write name data crashAfter writes = some s')
    (hstored : 0 ∉ asBytes name ∨ State.storedAs name ≠ n)
    (hrare : Rare FileEntry.nameStr s.fs.cp.live n) : Rare FileEntry.nameStr s'.fs.cp.live n := by
  obtain ⟨-, -, hlive | ⟨e, ⟨hkey, -⟩, hnul, hlive⟩⟩ := State.write_effect h hw
  · rw [hlive]
    exact hrare
  · rw [hlive]
    refine hrare.put ?_
    rcases hstored with h0 | hne
    · exact .inl (hnul h0)
    · right
      rw [hkey]
      exact hne

theorem Tracked.start (h : s₁.Sound) {i : Intent} (hi : lookup Intent.id s₁.intents me = some i)
    (hfirst : firstOn i.steps n = none) : Tracked me n s₁ s₁ := by
  refine ⟨⟨rfl, .refl h.wf h.sound, fun _ _ _ => rfl⟩, ⟨i, hi, .inl ⟨hfirst, rfl⟩⟩, fun hnone => ?_⟩
  rw [Fs.entry_eq] at hnone
  exact rare_of_none hnone

/-- Changes of the registry that leave the steps of `me` alone. -/
theorem Tracked.of_steps (h : Tracked me n s₁ s) (hfs : s'.fs = s.fs) (hcap : s'.capacity = s.capacity)
    (hdisk : s'.disk = s.disk)
    (hall : ∀ i, lookup Intent.id s.intents me = some i →
      ∃ i', lookup Intent.id s'.intents me = some i' ∧ firstOn i'.steps n = firstOn i.steps n) :
    Tracked me n s₁ s' := by
  obtain ⟨i, hi, hcase⟩ := h.recorded
  obtain ⟨i', hi', hsame⟩ := hall i hi
  refine ⟨⟨hcap.trans h.continues.capacity, hfs ▸ h.continues.follows, ?_⟩, ⟨i', hi', ?_⟩, hfs ▸ h.rare⟩
  · rw [hdisk]
    exact h.continues.disk
  · rw [hsame, hfs]
    exact hcase

/-- A write that leads `n` where it led before, or comes after a record of `n`. -/
theorem Tracked.write (h : Tracked me n s₁ s) (hs : s.Sound) {name : String} {data : List UInt8}
    {crashAfter : Option UInt32} {writes : List WriteFate}
    (hw : s.write name data crashAfter writes = some s')
    (hstored : 0 ∉ asBytes name ∨ State.storedAs name ≠ n)
    (hn : name ≠ n ∨
      ∃ i st, lookup Intent.id s.intents me = some i ∧ firstOn i.steps n = some st) :
    Tracked me n s₁ s' := by
  obtain ⟨hint, hc, -⟩ := State.write_effect hs hw
  obtain ⟨i, hi, hcase⟩ := h.recorded
  refine ⟨h.continues.trans hc, ⟨i, by rw [hint]; exact hi, ?_⟩,
    fun hnone => rare_write hs hw hstored (h.rare hnone)⟩
  rcases hcase with ⟨hfirst, hentry⟩ | hsome
  · rcases hn with hne | ⟨i', st, hi', hst⟩
    · refine .inl ⟨hfirst, ?_⟩
      rw [← hentry, Fs.entry_eq, Fs.entry_eq, lookup_write hs hw hne hstored]
    · cases hi.symm.trans hi'
      rw [hfirst] at hst
      cases hst
  · exact .inr hsome

/-- What `me` records of `n` first is what `n` led to since `s₁`. -/
theorem Tracked.record (h : Tracked me n s₁ s) {op target : String} :
    Tracked me n s₁ { s with intents := record s.intents me ⟨op, target, s.fs.entry target, true⟩ } := by
  obtain ⟨i, hi, hcase⟩ := h.recorded
  refine ⟨⟨h.continues.capacity, h.continues.follows, h.continues.disk⟩,
    ⟨_, lookup_modify_self rfl hi, ?_⟩, h.rare⟩
  dsimp only
  rw [firstOn_concat]
  rcases hcase with ⟨hfirst, hentry⟩ | ⟨st, hst, hbefore⟩
  · rw [hfirst]
    by_cases ht : target = n
    · subst ht
      exact .inr ⟨⟨op, target, s.fs.entry target, true⟩, by simp, hentry⟩
    · exact .inl ⟨by simp [ht], hentry⟩
  · exact .inr ⟨st, by simp [hst], hbefore⟩

/-- What an undo that did not finish leaves of `n`, and any undo of another intent. -/
theorem Tracked.undo (h : Tracked me n s₁ s) (hs : s.Sound) {id : UInt64} {writes : List WriteFate}
    {r : Except String (ℕ × ℕ)} {fs : Fs} {all : List Intent} {d : Device}
    (hu : Intents.undo s.intents id s.fs (s.device writes) = (.ok (r, fs, all), d))
    (hother : id = me ∨ ∀ i, lookup Intent.id s.intents id = some i →
      ∀ st ∈ i.steps, st.undoable = true → st.target ≠ n) :
    Tracked me n s₁ { s with disk := d.disk, fs := fs, intents := all } := by
  obtain ⟨hc, -, hlive⟩ := State.undo_effect hs hu
  obtain ⟨i, hi, hcase⟩ := h.recorded
  -- the registry still holds the steps of `me`
  have hkeep : ∃ i', lookup Intent.id all me = some i' ∧ i'.steps = i.steps := by
    rcases undo_cases hu with ⟨-, -, rfl, -⟩ | ⟨j, hj, -, rfl | rfl⟩
    · exact ⟨i, hi, rfl⟩
    · exact ⟨i, hi, rfl⟩
    · by_cases hid : id = me
      · subst hid
        exact ⟨_, lookup_modify_self rfl hi, rfl⟩
      · exact ⟨i, lookup_modify_ne hi hid fun _ => rfl, rfl⟩
  obtain ⟨i', hi', hsteps⟩ := hkeep
  refine ⟨h.continues.trans hc, ⟨i', hi', ?_⟩, fun hnone => ?_⟩
  · rw [hsteps]
    rcases hcase with ⟨hfirst, hentry⟩ | hsome
    · refine .inl ⟨hfirst, ?_⟩
      rw [← hentry, Fs.entry_eq, Fs.entry_eq]
      rcases hlive with ⟨hsame, -⟩ | ⟨j, done, hj, hdone, happly, -⟩
      · rw [hsame]
      · -- none of the steps that were undone is on `n`
        have hmem : ∀ st ∈ done, st ∈ j.steps := fun st hst => by
          simpa using hdone.subset hst
        rw [happly]
        refine applyAll_lookup_ne ((hs.recorded j (mem_of_lookup hj)).1.mono hmem) fun st hst hun => ?_
        rcases hother with rfl | hother
        · cases hi.symm.trans hj
          intro htarget
          have := List.find?_eq_none.mp hfirst st (hmem st hst)
          simp [hun, htarget] at this
        · exact hother j hj st (hmem st hst) hun
    · exact .inr hsome
  · rcases hlive with ⟨hsame, -⟩ | ⟨j, done, hj, hdone, happly, -⟩
    · rw [hsame]
      exact h.rare hnone
    · rw [happly]
      refine applyAll_rare ((hs.recorded j (mem_of_lookup hj)).1.mono fun st hst => ?_) (h.rare hnone)
      simpa using hdone.subset hst

/-- What a step keeps of one name that only the intent touches. -/
theorem tracked_step (h : Tracked me n s₁ s) (hs : s.Sound) {a : Act} (ha : Undisturbed me n s a)
    (hstep : s.next a = some s') : Tracked me n s₁ s' := by
  cases a with
  | start goal actor cap =>
    simp only [State.next] at hstep
    split_ifs at hstep
    cases hstep
    refine h.of_steps rfl rfl rfl fun i hi => ⟨i, ?_, rfl⟩
    simp only [lookup] at hi ⊢
    rw [List.find?_append, hi]
    rfl
  | step id op target data crashAfter writes =>
    have hsound : State.Sound { s with intents := record s.intents id ⟨op, target, s.fs.entry target, true⟩ } :=
      hs.record id _ fun _ => rfl
    simp only [Undisturbed] at ha
    by_cases hid : id = me
    · subst hid
      rw [if_pos rfl] at ha
      refine h.record.write hsound hstep (.inl ha) ?_
      by_cases ht : target = n
      · obtain ⟨i, hi, -⟩ := h.recorded
        refine .inr ⟨_, (firstOn i.steps n).getD ⟨op, target, s.fs.entry target, true⟩,
          lookup_modify_self rfl hi, ?_⟩
        dsimp only
        rw [firstOn_concat]
        cases firstOn i.steps n <;> simp [ht]
      · exact .inl ht
    · rw [if_neg hid] at ha
      have hrec : Tracked me n s₁
          { s with intents := record s.intents id ⟨op, target, s.fs.entry target, true⟩ } :=
        h.of_steps rfl rfl rfl fun i hi => ⟨i, lookup_modify_ne hi hid fun _ => rfl, rfl⟩
      exact hrec.write hsound hstep (.inr ha.2) (.inl ha.1)
  | note id op target before =>
    cases hstep
    refine h.of_steps rfl rfl rfl fun i hi => ?_
    by_cases hid : id = me
    · subst hid
      exact ⟨_, lookup_modify_self rfl hi, by simp [firstOn]⟩
    · exact ⟨i, lookup_modify_ne hi hid fun _ => rfl, rfl⟩
  | commit id =>
    cases hstep
    refine h.of_steps rfl rfl rfl fun i hi => ?_
    by_cases hid : id = me
    · subst hid
      exact ⟨_, lookup_modify_self rfl hi, rfl⟩
    · exact ⟨i, lookup_modify_ne hi hid fun _ => rfl, rfl⟩
  | write name data crashAfter writes => exact h.write hs hstep (.inr ha.2) (.inl ha.1)
  | undo id writes =>
    simp only [State.next] at hstep
    split at hstep
    · rename_i r fs all d hu
      cases hstep
      exact h.undo hs hu ha
    · cases hstep

theorem tracked_run (h : Tracked me n s₁ s) (hs : s.Sound) {acts : List Act}
    (ha : Run.Meets State.next (Undisturbed me n) s acts)
    (hrun : Run.exec State.next s acts = some s') : Tracked me n s₁ s' ∧ s'.Sound := by
  induction acts generalizing s with
  | nil =>
    cases hrun
    exact ⟨h, hs⟩
  | cons a acts ih =>
    obtain ⟨t, hstep, hrest⟩ := Option.bind_eq_some_iff.mp hrun
    exact ih (tracked_step h hs ha.1 hstep) (State.sound_next hs hstep) (ha.2 t hstep) hrest

end Tracked

/-! ## Undo -/

/-- Where an undo went well, the name leads to what `me` recorded of it first. -/
theorem Tracked.entry_undo {me : UInt64} {n : String} {s₁ s : State} (h : Tracked me n s₁ s)
    (hs : s.Sound) {writes : List WriteFate} {counts : ℕ × ℕ} {fs : Fs} {all : List Intent}
    {d : Device} (hu : Intents.undo s.intents me s.fs (s.device writes) = (.ok (.ok counts, fs, all), d)) :
    fs.entry n = s₁.fs.entry n := by
  obtain ⟨-, -, ⟨-, hnot⟩ | ⟨i, done, hi, -, hlive, hall⟩⟩ := State.undo_effect hs hu
  · exact absurd rfl (hnot counts)
  · obtain ⟨i', hi', hcase⟩ := h.recorded
    cases hi.symm.trans hi'
    have hnamed := (hs.recorded i (mem_of_lookup hi)).1
    rw [Fs.entry_eq, hlive, hall counts rfl]
    rcases hcase with ⟨hfirst, hentry⟩ | ⟨st, hst, hbefore⟩
    · rw [applyAll_lookup_ne (hnamed.mono (by simp)) fun st hst hun htarget => ?_]
      · rw [← hentry, Fs.entry_eq]
      · have := List.find?_eq_none.mp hfirst st (by simpa using hst)
        simp [hun, htarget] at this
    · rw [applyAll_lookup hnamed hst fun hnone => h.rare (hbefore.symm.trans hnone), hbefore]

/-- Two states show the same of a name whose entry is the same, when the log below the
head of the first is unchanged. -/
theorem State.view_eq {s s' : State} {n : String} (hs : s.Sound) (hc : State.Continues s s')
    (hentry : s'.fs.entry n = s.fs.entry n) : s'.view n = s.view n := by
  have hread : ∀ out, s'.fs.read n out = s.fs.read n out := fun out => by
    unfold Fs.read
    rw [hentry]
  have hsame : Fs.SameReads (fun x => LOG_START.toNat ≤ x ∧ x < s.fs.cp.logHead.toNat)
      (s'.device []) (s.device []) := ⟨hc.capacity, fun x hx => hc.disk x hx.1 hx.2, rfl, rfl⟩
  unfold State.view
  rw [hentry]
  congr 1
  funext out
  rw [hread]
  refine Fs.read_congr hsame.alike (fun e he k hk => ?_) out
  obtain ⟨-, hlive⟩ := Fs.entry_eq_some hs.wf he
  rcases hs.sound.within e hlive with h | ⟨h1, h2⟩ <;> omega

/-- In any run since a boot: if from `s₁` on only the intent `me` writes the name `n`,
and had not recorded it before, then an undo of `me` that returns `Ok` gives back the
entry and the contents that `n` had in `s₁`, or its absence. Undos that fail
part-way may come before it. -/
theorem undo_restores {me : UInt64} {n : String} {s₁ s₂ : State}
    (hr : Run.Reachable State.next Run.always State.Boot s₁) {i : Intent}
    (hi : lookup Intent.id s₁.intents me = some i) (hfirst : firstOn i.steps n = none)
    {acts : List Act} (ha : Run.Meets State.next (Undisturbed me n) s₁ acts)
    (hrun : Run.exec State.next s₁ acts = some s₂) {writes : List WriteFate} {counts : ℕ × ℕ}
    {fs : Fs} {all : List Intent} {d : Device}
    (hu : undo s₂.intents me s₂.fs (s₂.device writes) = (.ok (.ok counts, fs, all), d)) :
    State.view { s₂ with disk := d.disk, fs := fs, intents := all } n = s₁.view n := by
  have hs₁ := State.sound_reachable hr
  obtain ⟨htracked, hs₂⟩ := tracked_run (.start hs₁ hi hfirst) hs₁ ha hrun
  obtain ⟨hc, -⟩ := State.undo_effect hs₂ hu
  exact State.view_eq hs₁ (htracked.continues.trans hc) (htracked.entry_undo hs₂ hu)

/-! ## One file written and removed again -/

/-- The small disk right after it is mounted. -/
def booted : State where
  capacity := smallDisk.capacity
  disk := smallDisk.disk
  fs := adopt (smallDisk.disk SB_SECTOR) 0 Checkpoint.new
  intents := []
  nextId := 1

/-- The intent of one step is begun. -/
def begun : State :=
  { booted with intents := [⟨1, "rewrite the notes", "assistant", 0, [], .opened⟩], nextId := 2 }

theorem reachable_begun : Run.Reachable State.next Run.always State.Boot begun := by
  obtain ⟨-, hmounted⟩ := @mount_fresh _ fresh_smallDisk Run.always trivial
  have hboot : booted.Boot := ⟨⟨_, hmounted, rfl, rfl, rfl⟩, rfl⟩
  have hok : Run.always booted (Act.start "rewrite the notes" "assistant" 0) := trivial
  exact .next (.start hboot) hok rfl

/-- On a device without faults a file that exists is removed. -/
theorem setEntry_remove {fs : Fs} {name : String} {i : ℕ} {d : Device} (hfind : fs.find name = some i)
    (hseq : fs.cp.seq.toNat + 1 < 2 ^ 64) (hw : d.writes = [])
    (hcap : CP_SECTORS (1 - fs.slot) < d.capacity) :
    ∃ fs' d', fs.setEntry name none d = (.ok fs', d') := by
  have hone : (1 : UInt64).toNat = 1 := rfl
  obtain ⟨seq, hadd, -⟩ := Blk.addU64_of_lt (a := fs.cp.seq) (b := 1) (by omega) d
  have hstage : ∃ next, fs.stageEntry name none d = (.ok (some next), d) := by
    unfold Fs.stageEntry
    rw [Blk.bind_of_ok hadd, hfind]
    exact ⟨_, rfl⟩
  obtain ⟨next, hstage⟩ := hstage
  refine ⟨{ fs with cp := next, slot := 1 - fs.slot },
    d.store (CP_SECTORS (1 - fs.slot)) next.encode, ?_⟩
  rw [Fs.setEntry, Blk.bind_of_ok hstage]
  dsimp only
  rw [Fs.commit, Blk.bind_of_ok (Blk.writeSector_of_healthy _ hw hcap)]
  rfl

theorem State.write_of_ok {s : State} {name : String} {data : List UInt8}
    {crashAfter : Option UInt32} {writes : List WriteFate} {fs : Fs} {d : Device}
    (h : s.fs.write name data crashAfter (s.device writes) = (.ok fs, d)) :
    s.write name data crashAfter writes = some { s with disk := d.disk, fs := fs } := by
  rw [State.write, h]

/-- The undo of an intent of one step. -/
theorem undo_of_single {all : List Intent} {id : UInt64} {i : Intent} {st : Step} {fs fs' : Fs}
    {d d' : Device} (hl : lookup Intent.id all id = some i) (hopen : i.state ≠ .undone)
    (hsteps : i.steps = [st]) (hu : st.undoable = true)
    (hset : fs.setEntry st.target st.before d = (.ok fs', d')) :
    undo all id fs d =
      (.ok (.ok (1, 0), fs', modify all id fun i => { i with state := .undone }), d') := by
  have hloop : undoLoop [st] 0 0 fs d = (.ok (.ok (1, 0), fs'), d') := by
    rw [undoLoop, if_neg (by simp [hu]), Blk.bind_of_ok (Blk.attempt_of_ok hset)]
    rfl
  rw [undo, hl]
  dsimp only
  rw [if_neg hopen, hsteps, List.reverse_singleton, Blk.bind_of_ok hloop]
  rfl

/-- The first step is recorded: the file does not exist yet. -/
def recordedNotes : State :=
  { begun with intents := record begun.intents 1 ⟨"notes.rewrite", "notes", none, true⟩ }

theorem entry_booted (name : String) : booted.fs.entry name = none := by
  show (booted.fs.find name).bind _ = none
  rw [show booted.fs.find name = none from rfl]
  rfl

theorem cpSector_booted (slot : Fin 2) : CP_SECTORS slot < booted.capacity := by
  show _ < smallDisk.capacity
  rw [capacity_smallDisk]
  rcases cpSector_cases slot with h | h <;> rw [h] <;> decide

/-- A first file is written to the small disk. -/
theorem write_notes : ∃ fs d,
    booted.fs.write "notes" [1, 2, 3] none (booted.device [.ok]) = (.ok fs, d) ∧
      fs.entry "notes" ≠ none ∧ fs.cp.seq.toNat + 1 < 2 ^ 64 := by
  generalize hfs : booted.fs = fs₀
  have hcp : fs₀.cp = Checkpoint.new := by
    rw [← hfs]
    rfl
  have hlimit : fs₀.logLimit.toNat = 1439 := by
    rw [← hfs]
    exact logLimit_smallDisk _ _
  have hcapacity : (booted.device [.ok]).capacity = 20000 := capacity_smallDisk
  have hnew : fs₀.find "notes" = none := by
    rw [Fs.find, Fs.files, hcp]
    rfl
  have hacc : fs₀.Accepts "notes" [1, 2, 3] := by
    refine ⟨by decide, ?_⟩
    rw [hlimit, hcp]
    decide
  obtain ⟨fs, d, hwrite, hseq, hlive⟩ := Fs.write_progress (hcp ▸ Checkpoint.wf_new) hacc hnew
    (by rw [hcp]; decide) (by rw [hcp]; decide) (by omega) (by omega)
    (show (booted.device [.ok]).writes = _ from rfl)
  refine ⟨fs, d, hwrite, ?_, ?_⟩
  · rw [Fs.entry_eq, hlive, hcp, Checkpoint.live_new, List.nil_append, lookup_cons,
      if_pos (Fs.nameStr_newEntry hacc.1 (by decide))]
    exact Option.some_ne_none _
  · have hone : Checkpoint.new.seq.toNat = 1 := rfl
    rw [hcp, hone] at hseq
    omega

/-- The intent writes a new file, and its undo removes the file again. -/
theorem undo_restores_notes : ∃ (s : State) (counts : ℕ × ℕ) (fs : Fs) (all : List Intent)
    (d : Device), begun.next (.step 1 "notes.rewrite" "notes" [1, 2, 3] none [.ok]) = some s ∧
      s.fs.entry "notes" ≠ none ∧
      undo s.intents 1 s.fs (s.device []) = (.ok (.ok counts, fs, all), d) ∧
      State.view { s with disk := d.disk, fs := fs, intents := all } "notes" = begun.view "notes" := by
  obtain ⟨fs₁, d₂, hwrite, hentry, hseq⟩ := write_notes
  have hbefore : begun.fs.entry "notes" = none := entry_booted "notes"
  have hstep : begun.next (.step 1 "notes.rewrite" "notes" [1, 2, 3] none [.ok]) =
      some { recordedNotes with disk := d₂.disk, fs := fs₁ } := by
    have hrun := State.write_of_ok (s := recordedNotes) hwrite
    rw [← hrun, State.next, hbefore]
    rfl
  -- the undo
  obtain ⟨i, hfind⟩ : ∃ i, fs₁.find "notes" = some i := by
    cases hfind : fs₁.find "notes" with
    | none => exact absurd (by rw [Fs.entry, hfind]; rfl) hentry
    | some i => exact ⟨i, rfl⟩
  obtain ⟨fs₂, d₃, hset⟩ := setEntry_remove hfind hseq
    (d := State.device { recordedNotes with disk := d₂.disk, fs := fs₁ } []) rfl
    (cpSector_booted (1 - fs₁.slot))
  have hundo := undo_of_single (show lookup Intent.id recordedNotes.intents 1 = some _ from rfl) (by decide) rfl rfl hset
  have hexec : Run.exec State.next begun [.step 1 "notes.rewrite" "notes" [1, 2, 3] none [.ok]] =
      some { recordedNotes with disk := d₂.disk, fs := fs₁ } := by
    rw [Run.exec, hstep]
    rfl
  have hmeets : Run.Meets State.next (Undisturbed 1 "notes") begun
      [.step 1 "notes.rewrite" "notes" [1, 2, 3] none [.ok]] := by
    refine ⟨?_, fun _ _ => trivial⟩
    rw [Undisturbed, if_pos rfl]
    decide
  have hlook : lookup Intent.id begun.intents 1 =
      some ⟨1, "rewrite the notes", "assistant", 0, [], .opened⟩ := rfl
  exact ⟨_, (1, 0), fs₂, _, d₃, hstep, hentry, hundo,
    undo_restores reachable_begun hlook rfl hmeets hexec hundo⟩

end JungeyOs.Intents
