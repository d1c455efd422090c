import JungeyOs.Lib.Observer
import JungeyOs.ModelStore.Faults

/-!
# The model store without `reclaim`

What the processes would be answered if every page that has been mapped stayed mapped. There are no
frames here and no faults: an address space says of each page whether it is a page of a model or other
memory, and a page of a model holds what its file holds.

Results:
* `model_of_files`, `files_enter`: the files of the models, which no fault and no `reclaim` changes.
* `Kept.Whole.found`: a page that a process has mapped is one that the model has.
-/

namespace JungeyOs.ModelStore

open Mm

/-! ## The files of the models -/

/-- What is fixed of a model when it is opened. -/
structure File where
  id : ℕ
  hash : UInt64
  size : ℕ
  startSector : ℕ
  pages : ℕ
  deriving DecidableEq

def Model.file (m : Model) : File := ⟨m.id, m.hash, m.size, m.startSector, m.pages.length⟩

def Store.files (st : Store) : List File := st.models.map Model.file

/-- Two stores with the same models, but for what is resident and for the counters. -/
structure SameModels (st st' : Store) : Prop where
  files : st.files = st'.files
  nextId : st.nextId = st'.nextId

section

variable {st st' : Store} {g : Model → Model} {id : ℕ} {m : Model}

theorem SameModels.symm (h : SameModels st st') : SameModels st' st := ⟨h.files.symm, h.nextId.symm⟩

theorem SameModels.trans {st'' : Store} (h : SameModels st st') (h' : SameModels st' st'') :
    SameModels st st'' :=
  ⟨h.files.trans h'.files, h.nextId.trans h'.nextId⟩

/-- A change that keeps what is fixed. -/
theorem SameModels.modify (hg : ∀ m, (g m).file = m.file) (id : ℕ) :
    SameModels (st.modify id g) st := by
  unfold Store.modify
  cases hm : st.model id with
  | none => exact ⟨rfl, rfl⟩
  | some m =>
    exact ⟨Dir.map_put_eq hm (hg m), rfl⟩

theorem SameModels.setPage (id index : ℕ) (p : PageState) : SameModels (st.setPage id index p) st := by
  refine .modify (g := Model.setPage index p) (fun m => ?_) id
  show File.mk m.id m.hash m.size m.startSector (m.pages.set index p).length = m.file
  rw [List.length_set]
  rfl

/-- The first model of a kind, in a store and in one with the same models. -/
theorem find_of_files (h : st.files = st'.files) (P : File → Bool) :
    (st.models.find? fun m => P m.file).map Model.file =
      (st'.models.find? fun m => P m.file).map Model.file := by
  have hfind := congrArg (List.find? P) h
  unfold Store.files at hfind
  rw [List.find?_map, List.find?_map] at hfind
  exact hfind

theorem model_of_files (h : st.files = st'.files) (hm : st.model id = some m) :
    ∃ m', st'.model id = some m' ∧ m'.file = m.file := by
  have hfind := find_of_files h fun f => f.id = id
  have hm' : st.models.find? (fun x => x.id = id) = some m := hm
  obtain ⟨m', hfound, hfile⟩ := Option.map_eq_some_iff.mp
    (hfind.symm.trans (by rw [show (st.models.find? fun m => decide (m.file.id = id)) = some m from hm']; rfl))
  exact ⟨m', hfound, hfile⟩

theorem model_none_of_files (h : st.files = st'.files) (hm : st.model id = none) :
    st'.model id = none := by
  cases hm' : st'.model id with
  | none => rfl
  | some m' =>
    obtain ⟨m, hsome, -⟩ := model_of_files h.symm hm'
    rw [hm] at hsome
    cases hsome

/-- `open` does the same to the models of both stores. -/
theorem SameModels.enter (h : SameModels st st') (hash : UInt64) (start size : ℕ) :
    SameModels (st.enter hash start size).2 (st'.enter hash start size).2 := by
  have hfind := find_of_files h.files fun f => f.hash = hash
  unfold Store.enter
  cases hm : st.models.find? fun m => m.hash = hash with
  | none =>
    cases hm' : st'.models.find? fun m => m.hash = hash with
    | none =>
      refine ⟨?_, congrArg (· + 1) h.nextId⟩
      show List.map Model.file (_ ++ _) = List.map Model.file (_ ++ _)
      rw [List.map_append, List.map_append, h.nextId]
      exact congrArg (· ++ _) h.files
    | some m' =>
      change Option.map _ (st.models.find? fun m => m.hash = hash) =
        Option.map _ (st'.models.find? fun m => m.hash = hash) at hfind
      rw [hm, hm'] at hfind
      cases hfind
  | some m =>
    cases hm' : st'.models.find? fun m => m.hash = hash with
    | none =>
      change Option.map _ (st.models.find? fun m => m.hash = hash) =
        Option.map _ (st'.models.find? fun m => m.hash = hash) at hfind
      rw [hm, hm'] at hfind
      cases hfind
    | some m' =>
      have hst : SameModels (st.modify m.id Model.referred) st :=
        .modify (g := Model.referred) (fun _ => rfl) m.id
      have hst' : SameModels (st'.modify m'.id Model.referred) st' :=
        .modify (g := Model.referred) (fun _ => rfl) m'.id
      exact (hst.trans h).trans hst'.symm

end

/-! ## The state -/

/-- Where a thread stands in a copy. The source of a piece is a page of a model, or other memory. -/
inductive Task
  | user
  | copyFrom (c : CopyFrom)
  | copyPiece (c : CopyFrom) (source : Option PageId)
  | copyTo (c : CopyTo)
  | writePiece (c : CopyTo) (target : Option PageId)

/-- The fault of a thread is no concern of its process. -/
def Pc.task : Pc → Task
  | .copyFrom c => .copyFrom c
  | .copyPiece c leaf => .copyPiece c leaf.tag
  | .copyTo c => .copyTo c
  | .writePiece c leaf => .writePiece c leaf.tag
  | _ => .user

/-- `pages pid page` is what the process has at the page, if anything: a page of a model, or other
memory. -/
structure Kept where
  store : Store
  vmas : ℕ → List Vma
  pages : ℕ → ℕ → Option (Option PageId)
  task : ℕ → Task
  log : List (Request × Answer)

/-- What happens on such a machine. What other memory holds comes with the event that reads it. -/
inductive Event
  | openModel (start size : ℕ)
  | modelMap (pid id uva : ℕ)
  | load (k pid va : ℕ) (other : UInt8)
  | copyFrom (k pid uva len : ℕ)
  | copyTo (k pid uva : ℕ) (data : List UInt8)
  | copy (k : ℕ) (other : List UInt8)
  /-- A fault maps a page of a model. -/
  | touch (pid page : ℕ) (q : PageId)
  | map (pid va room : ℕ)

namespace Kept

def boot : Kept := ⟨.boot, fun _ => [], fun _ _ => none, fun _ => .user, []⟩

def goto (i : Kept) (k : ℕ) (t : Task) : Kept := { i with task := Function.update i.task k t }

def answer (i : Kept) (k : ℕ) (q : Request) (a : Answer) : Kept :=
  { i.goto k .user with log := (q, a) :: i.log }

def setPage (i : Kept) (pid page : ℕ) (source : Option PageId) : Kept :=
  { i with pages := Function.update i.pages pid (Function.update (i.pages pid) page (some source)) }

/-- What a page of a model holds. -/
def page (disk : Disk) (i : Kept) (q : PageId) : Page :=
  match i.store.model q.id with
  | none => Vector.replicate PAGE_SIZE 0
  | some m => filePage disk m.startSector m.size q.index

def entry (i : Kept) (pid va : ℕ) : Option (Option PageId) :=
  if va < 2 ^ 48 then i.pages pid (pageOf va) else none

/-- A load that is answered. -/
def load (disk : Disk) (i : Kept) (k pid va : ℕ) (other : UInt8) : Kept :=
  match i.entry pid va with
  | none => i.answer k (.load pid va) .killed
  | some none => i.answer k (.load pid va) (.byte other)
  | some (some q) => i.answer k (.load pid va)
    (.byte ((i.page disk q).get ⟨va % PAGE_SIZE, Nat.mod_lt va PAGE_SIZE_pos⟩))

/-- The head of the loop of `copy_from_user` (`mm/uaccess.rs`, lines 21–23). -/
def copyFromHead (i : Kept) (k : ℕ) (c : CopyFrom) : Kept :=
  if c.out.length < c.len then
    match i.pages c.pid (pageOf (c.uva + c.out.length)) with
    | none => i.answer k (.copyFrom c.pid c.uva c.len) (.refused "unmapped user address")
    | some source => i.goto k (.copyPiece c source)
  else i.answer k (.copyFrom c.pid c.uva c.len) (.copied c.out)

/-- The rest of an iteration of `copy_from_user` (`mm/uaccess.rs`, lines 24–28). -/
def copyPiece (disk : Disk) (i : Kept) (k : ℕ) (c : CopyFrom) (other : List UInt8) : Option PageId → Kept
  | none => i.goto k (.copyFrom { c with out := c.out ++ other })
  | some q =>
    let va := c.uva + c.out.length
    i.goto k (.copyFrom { c with
      out := c.out ++ Memory.read (fun _ => i.page disk q) (va % PAGE_SIZE)
        (chunk c.uva c.len c.out.length) })

/-- The head of the loop of `copy_to_user` (`mm/uaccess.rs`, lines 35–37). -/
def copyToHead (i : Kept) (k : ℕ) (c : CopyTo) : Kept :=
  if c.done < c.data.length then
    match i.pages c.pid (pageOf (c.uva + c.done)) with
    | none => i.answer k (.copyTo c.pid c.uva c.data) (.refused "unmapped user address")
    | some target => i.goto k (.writePiece c target)
  else i.answer k (.copyTo c.pid c.uva c.data) .done

/-- The next step of a copy. -/
def copy (disk : Disk) (i : Kept) (k : ℕ) (other : List UInt8) : Task → Kept
  | .user => i
  | .copyFrom c => i.copyFromHead k c
  | .copyPiece c source => i.copyPiece disk k c other source
  | .copyTo c => i.copyToHead k c
  | .writePiece c _ =>
    i.goto k (.copyTo { c with done := c.done + chunk c.uva c.data.length c.done })

/-- `sys_model_map` (`syscall.rs`, lines 312–331). -/
def modelMap (i : Kept) (pid id uva : ℕ) : Kept :=
  if uva % PAGE_SIZE ≠ 0 then i
  else match i.store.model id with
    | none => i
    | some m =>
      { i with
        vmas := Function.update i.vmas pid
          (i.vmas pid ++ [⟨uva, (m.size + PAGE_SIZE - 1) / PAGE_SIZE, .model id⟩]) }

def after (disk : Disk) (i : Kept) : Event → Kept
  | .openModel start size =>
    match hashFile (readSector disk fun _ => true) start size with
    | none => i
    | some hash => { i with store := (i.store.enter hash start size).2 }
  | .modelMap pid id uva => i.modelMap pid id uva
  | .load k pid va other => i.load disk k pid va other
  | .copyFrom k pid uva len =>
    if MAX_TRANSFER < len then i.answer k (.copyFrom pid uva len) (.refused "transfer too large")
    else i.goto k (.copyFrom ⟨pid, uva, len, []⟩)
  | .copyTo k pid uva data => i.goto k (.copyTo ⟨pid, uva, data, 0⟩)
  | .copy k other => i.copy disk k other (i.task k)
  | .touch pid page q => i.setPage pid page (some q)
  | .map pid va room =>
    if va % PAGE_SIZE = 0 ∧ 0 < room then i.setPage pid (pageOf va) none else i

end Kept

/-! ## What the processes do -/

namespace Sys

/-- What a piece of `copy_from_user` reads where it reads other memory. -/
def readOther (s : Sys) (c : CopyFrom) (leaf : Leaf (Option PageId)) : List UInt8 :=
  if leaf.tag = none then
    s.mem.read (leaf.frame + (c.uva + c.out.length) % PAGE_SIZE) (chunk c.uva c.len c.out.length)
  else []

/-- A thread's step as it is seen: a step of a copy, or that a fault has mapped a page that the process
does not have. -/
def seeRun (s : Sys) (i : Kept) (k : ℕ) : Pc → Option Event
  | .mapping c _ =>
    if i.pages c.pid (pageOf c.va) = some (some c.toPageId) then none
    else some (.touch c.pid (pageOf c.va) c.toPageId)
  | .copyFrom _ => some (.copy k [])
  | .copyPiece c leaf => some (.copy k (s.readOther c leaf))
  | .copyTo _ => some (.copy k [])
  | .writePiece _ _ => some (.copy k [])
  | _ => none

/-- A load as it is seen: when it is answered. -/
def seeLoad (s : Sys) (k pid va : ℕ) : Option Event :=
  match s.entry pid va with
  | some leaf => some (.load k pid va (if leaf.tag = none then
      (s.mem leaf.frame).get ⟨va % PAGE_SIZE, Nat.mod_lt va PAGE_SIZE_pos⟩ else 0))
  | none =>
    match demand (s.vmas pid) va with
    | none => some (.load k pid va 0)
    | some _ => none

/-- What a step is to the processes: they see neither `reclaim` nor what a fault does, but that it maps
a page that they do not have. -/
def see (s : Sys) (i : Kept) : Act → Option Event
  | .openModel start size _ => some (.openModel start size)
  | .modelMap pid id uva => some (.modelMap pid id uva)
  | .load k pid va => s.seeLoad k pid va
  | .copyFrom k pid uva len => some (.copyFrom k pid uva len)
  | .copyTo k pid uva data => some (.copyTo k pid uva data)
  | .run k _ _ => s.seeRun i k (s.pc k)
  | .map pid va _ _ room => some (.map pid va room)
  | _ => none

end Sys

/-- The processes as an observer of the system. -/
def processes (disk : Disk) : Run.Observer Sys Act Kept Event := ⟨Sys.see, Kept.after disk⟩

/-! ## Pages that the model has -/

/-- The regions of the processes are as long as their models. -/
structure Kept.Whole (i : Kept) : Prop where
  sized : ∀ f ∈ i.store.files, f.pages = (f.size + PAGE_SIZE - 1) / PAGE_SIZE
  regions : ∀ pid, ∀ v ∈ i.vmas pid, ∀ id, v.kind = .model id →
    ∃ m, i.store.model id = some m ∧ v.pages = m.pages.length

section

variable {i : Kept} {disk : Disk} {pid va : ℕ} {q : PageId}

/-- A page that a process has mapped is one that the model has. -/
theorem Kept.Whole.found (h : i.Whole) (hd : demand (i.vmas pid) va = some q) :
    ∃ m, i.store.model q.id = some m ∧ q.index < m.pages.length := by
  obtain ⟨v, hv, hq⟩ := Option.map_eq_some_iff.mp hd
  obtain ⟨hstart, hend⟩ : v.start ≤ pageAlignDown va ∧
      pageAlignDown va < (v.start + v.pages * PAGE_SIZE) % 2 ^ 64 := by
    have hcovers := List.find?_some hv
    rwa [Vma.covers, decide_eq_true_iff] at hcovers
  cases hkind : v.kind with
  | model id =>
    rw [hkind] at hq
    subst hq
    obtain ⟨m, hm, hpages⟩ := h.regions pid v (List.mem_of_find?_eq_some hv) id hkind
    refine ⟨m, hm, ?_⟩
    show (pageAlignDown va - v.start) / PAGE_SIZE < m.pages.length
    rw [← hpages, Nat.div_lt_iff_lt_mul (by decide)]
    have hmod := Nat.mod_le (v.start + v.pages * PAGE_SIZE) (2 ^ 64)
    omega

/-- What changes neither the models nor the regions. -/
theorem Kept.Whole.kept {j : Kept} (h : i.Whole) (hstore : j.store = i.store) (hvmas : j.vmas = i.vmas) :
    j.Whole :=
  ⟨hstore ▸ h.sized, fun pid v hv => hstore ▸ h.regions pid v (hvmas ▸ hv)⟩

theorem Kept.Whole.openModel (h : i.Whole) (hash : UInt64) (start size : ℕ) :
    Kept.Whole { i with store := (i.store.enter hash start size).2 } := by
  refine ⟨fun f hf => ?_, fun pid v hv id hkind => ?_⟩
  · dsimp only at hf
    rcases Store.enter_cases i.store hash start size with ⟨m, -, -, heq⟩ | ⟨-, heq⟩
    · rw [heq, (SameModels.modify (g := Model.referred) (fun _ => rfl) m.id).files] at hf
      exact h.sized f hf
    · rw [heq] at hf
      have hf' : f ∈ i.store.files ++ [Model.file ⟨i.store.nextId, hash, size, start,
          List.replicate ((size + PAGE_SIZE - 1) / PAGE_SIZE) .absent, [], 1, 0, 0⟩] := by
        simpa [Store.files] using hf
      rcases List.mem_append.mp hf' with hold | hnew
      · exact h.sized f hold
      · rw [List.mem_singleton.mp hnew]
        exact List.length_replicate
  · obtain ⟨m, hm, hpages⟩ := h.regions pid v hv id hkind
    obtain ⟨refs, hm'⟩ := i.store.model_enter hash start size hm
    exact ⟨_, hm', hpages⟩

theorem Kept.Whole.modelMap (h : i.Whole) (pid id uva : ℕ) : (i.modelMap pid id uva).Whole := by
  unfold Kept.modelMap
  split_ifs
  · exact h
  · cases hm : i.store.model id with
    | none => exact h
    | some m =>
      refine ⟨h.sized, fun pid' v hv id' hkind => ?_⟩
      dsimp only at hv
      by_cases hpid : pid' = pid
      · rw [hpid, Function.update_self] at hv
        rcases List.mem_append.mp hv with hold | hnew
        · exact h.regions pid v hold id' hkind
        · rw [List.mem_singleton] at hnew
          subst hnew
          cases hkind
          have hmem : m ∈ i.store.models := Dir.mem_of_lookup hm
          have hfile := h.sized m.file (List.mem_map_of_mem hmem)
          exact ⟨m, hm, hfile.symm⟩
      · rw [Function.update_of_ne hpid] at hv
        exact h.regions pid' v hv id' hkind

end

end JungeyOs.ModelStore
