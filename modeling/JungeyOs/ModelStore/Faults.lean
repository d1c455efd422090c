import JungeyOs.Lib.Run
import JungeyOs.Mm.Uaccess
import JungeyOs.ModelStore.Store

/-!
# Page faults, copies and `reclaim` on several threads

Models of `fault`, `map_into` and `reclaim` (`kernel/src/model.rs`, lines 180–323), of `demand_fault`
(`kernel/src/mm/mod.rs`, lines 45–63) and of the loops of `kernel/src/mm/uaccess.rs`, as any number of
threads run them. A step is what a thread does while it holds the store lock, or what it does between
two such sections; an iteration of a copy is a step that translates the address and a step that copies
the bytes. The rest of the kernel takes frames, writes to them, maps them and frees them.

A leaf entry that a fault has installed remembers the page of the model; the hardware does not see it.
-/

namespace JungeyOs.ModelStore

open Mm

/-! ## The state -/

/-- `VmaKind` (`proc.rs`, lines 33–36). -/
inductive VmaKind
  | model (id : ℕ)
  deriving DecidableEq

/-- `Vma` (`proc.rs`, lines 38–43). -/
structure Vma where
  start : ℕ
  pages : ℕ
  kind : VmaKind
  deriving DecidableEq

/-- The test of `find_vma` (`proc.rs`, line 188). -/
def Vma.covers (v : Vma) (va : ℕ) : Bool :=
  v.start ≤ va ∧ va < (v.start + v.pages * PAGE_SIZE) % 2 ^ 64

/-- `find_vma` (`proc.rs`, lines 182–191) on the regions of a process. -/
def findVma (vmas : List Vma) (va : ℕ) : Option Vma := vmas.find? fun v => v.covers va

/-- A page of a model. -/
structure PageId where
  id : ℕ
  index : ℕ
  deriving DecidableEq

/-- The page that `demand_fault` asks for (`mm/mod.rs`, lines 54–61). -/
def demand (vmas : List Vma) (va : ℕ) : Option PageId :=
  let page := pageAlignDown va
  (findVma vmas page).map fun v =>
    match v.kind with
    | .model id => ⟨id, (page - v.start) / PAGE_SIZE⟩

/-- A call of `fault` for a load from `va`. -/
structure Fault extends PageId where
  pid : ℕ
  va : ℕ
  deriving DecidableEq

/-- A call of `copy_from_user`, with what is copied so far. -/
structure CopyFrom where
  pid : ℕ
  uva : ℕ
  len : ℕ
  out : List UInt8
  deriving DecidableEq

/-- A call of `copy_to_user`, with how much is copied so far. -/
structure CopyTo where
  pid : ℕ
  uva : ℕ
  data : List UInt8
  done : ℕ
  deriving DecidableEq

/-- Where a thread stands. -/
inductive Pc
  | user
  /-- `fault`, at the start of a round (line 187) -/
  | faulting (c : Fault)
  /-- `fault`, which has claimed the page (line 229) -/
  | claimed (c : Fault)
  /-- `fault`, which has no frame or could not read the page (lines 238 and 256) -/
  | failed (c : Fault)
  /-- `fault`, with the page in a frame (line 273) -/
  | loaded (c : Fault) (frame : ℕ)
  /-- `map_into` (line 286) -/
  | mapping (c : Fault) (frame : ℕ)
  /-- `copy_from_user`, before an iteration (line 21) -/
  | copyFrom (c : CopyFrom)
  /-- `copy_from_user`, with the entry that `translate` found (line 24) -/
  | copyPiece (c : CopyFrom) (leaf : Leaf (Option PageId))
  /-- `copy_to_user`, before an iteration (line 35) -/
  | copyTo (c : CopyTo)
  /-- `copy_to_user`, with the entry that `translate` found (line 38) -/
  | writePiece (c : CopyTo) (leaf : Leaf (Option PageId))
  deriving DecidableEq

/-- What a process asks for: a byte of its memory, or that the kernel copies from it or to it. -/
inductive Request
  | load (pid va : ℕ)
  | copyFrom (pid uva len : ℕ)
  | copyTo (pid uva : ℕ) (data : List UInt8)
  deriving DecidableEq

/-- What becomes of a request. A process that faults for nothing is killed. -/
inductive Answer
  | byte (b : UInt8)
  | killed
  | copied (bytes : List UInt8)
  | done
  | refused (why : String)
  deriving DecidableEq

/-- `procs` is how many processes there are; `pinned` are the frames that the rest of the kernel has
mapped into some process, and `others` those that it has otherwise. `written` has, for every piece that
a copy has written, the entry that it went through and the entries of the process then, and `log` is
what the processes have been answered, both newest first. `reads` is how often each page was read from
flash since `reclaim` last took it. -/
structure Sys where
  store : Store
  /-- `RESIDENT` (`model.rs`, line 86) -/
  resident : ℕ
  /-- `SHARED_HITS` (`model.rs`, line 88) -/
  sharedHits : ℕ
  procs : ℕ
  spaces : ℕ → PageMap (Option PageId)
  vmas : ℕ → List Vma
  frames : Frames
  mem : Memory
  others : List ℕ
  pinned : List ℕ
  pc : ℕ → Pc
  written : List (Leaf (Option PageId) × PageMap (Option PageId))
  log : List (Request × Answer)
  reads : PageId → ℕ

/-- `io` says which sectors the driver can read, and `room` for how many pages the allocator has frames
for page tables. `run k` is the next step of thread `k`. -/
inductive Act
  | create
  | openModel (start size : ℕ) (io : ℕ → Bool)
  | modelMap (pid id uva : ℕ)
  | load (k pid va : ℕ)
  | copyFrom (k pid uva len : ℕ)
  | copyTo (k pid uva : ℕ) (data : List UInt8)
  | run (k : ℕ) (io : ℕ → Bool) (room : ℕ)
  | reclaim (want : ℕ)
  | take
  | write (frame : ℕ) (page : Page)
  | release (frame : ℕ)
  | map (pid va frame : ℕ) (perm : Perm) (room : ℕ)

def Act.reclaims : Act → Bool
  | .reclaim _ => true
  | _ => false

/-- An entry that is not for writing. -/
def ReadOnly (perm : Perm) : Prop := perm = .UserReadOnly ∨ perm = .UserText

instance (perm : Perm) : Decidable (ReadOnly perm) := inferInstanceAs (Decidable (_ ∨ _))

namespace Sys

def goto (s : Sys) (k : ℕ) (pc : Pc) : Sys := { s with pc := Function.update s.pc k pc }

/-- A request of the thread is answered. -/
def answer (s : Sys) (k : ℕ) (q : Request) (a : Answer) : Sys :=
  { s.goto k .user with log := (q, a) :: s.log }

/-- `frames::free`. -/
def freeFrame (s : Sys) (frame : ℕ) : Sys :=
  { s with frames := (s.frames.free s.mem frame).1, mem := (s.frames.free s.mem frame).2 }

def setSpace (s : Sys) (pid : ℕ) (m : PageMap (Option PageId)) : Sys :=
  { s with spaces := Function.update s.spaces pid m }

/-! ## Faults -/

/-- The entry that the hardware uses for a load: user addresses have 48 bits. -/
def entry (s : Sys) (pid va : ℕ) : Option (Leaf (Option PageId)) :=
  if va < 2 ^ 48 then s.spaces pid (pageOf va) else none

/-- A load, and `demand_fault` where no page is mapped. -/
def load (s : Sys) (k pid va : ℕ) : Sys :=
  match s.entry pid va with
  | some leaf => s.answer k (.load pid va)
    (.byte ((s.mem leaf.frame).get ⟨va % PAGE_SIZE, Nat.mod_lt va PAGE_SIZE_pos⟩))
  | none =>
    match demand (s.vmas pid) va with
    | none => s.answer k (.load pid va) .killed
    | some p => s.goto k (.faulting ⟨p, pid, va⟩)

/-- `fault` returns `false`. -/
def failFault (s : Sys) (k : ℕ) (c : Fault) : Sys := s.answer k (.load c.pid c.va) .killed

/-- A round of the loop of `fault` (lines 187–224). -/
def lookUp (s : Sys) (k : ℕ) (c : Fault) : Sys :=
  match s.store.lookUp c.id c.index with
  | (.nothing, _) => s.failFault k c
  | (.resident frame, store) =>
    { s.goto k (.mapping c frame) with store := store, sharedHits := s.sharedHits + 1 }
  | (.loading, _) => s
  | (.claimed, store) => { s.goto k (.claimed c) with store := store }

/-- `fault` reads the page into a frame (lines 229–270). -/
def readIn (disk : Disk) (s : Sys) (k : ℕ) (c : Fault) (io : ℕ → Bool) : Sys :=
  match s.store.model c.id with
  | none => s.failFault k c
  | some m =>
    match s.frames.alloc s.mem with
    | (none, frames) => { s.goto k (.failed c) with frames := frames }
    | (some frame, frames) =>
      match readPage (readSector disk io) m.startSector m.size c.index with
      | none => ({ s with frames := frames }.freeFrame frame).goto k (.failed c)
      | some page =>
        { s.goto k (.loaded c frame) with
          frames := frames
          mem := Function.update s.mem frame page
          reads := Function.update s.reads c.toPageId (s.reads c.toPageId + 1) }

/-- `fault` gives its claim up (lines 238–242 and 256–260). -/
def giveUp (s : Sys) (k : ℕ) (c : Fault) : Sys :=
  { s with store := s.store.setPage c.id c.index .absent }.failFault k c

/-- `fault` publishes the page (lines 272–280). -/
def publish (s : Sys) (k : ℕ) (c : Fault) (frame : ℕ) : Sys :=
  match s.store.model c.id with
  | none => (s.freeFrame frame).failFault k c
  | some _ =>
    { s.goto k (.mapping c frame) with
      store := s.store.setPage c.id c.index (.resident frame)
      resident := s.resident + 1 }

/-- `map_into` (lines 285–288). -/
def mapInto (s : Sys) (k : ℕ) (c : Fault) (frame room : ℕ) : Sys :=
  if c.pid < s.procs then
    let m := (s.spaces c.pid).map (pageAlignDown c.va) frame 1 .UserReadOnly (some c.toPageId) room
    match m.1 with
    | .ok () => (s.setSpace c.pid m.2).goto k .user
    | .error _ => (s.setSpace c.pid m.2).failFault k c
  else s.failFault k c

/-! ## Copies -/

/-- The head of the loop of `copy_from_user` (lines 21–23). -/
def copyFromHead (s : Sys) (k : ℕ) (c : CopyFrom) : Sys :=
  if c.out.length < c.len then
    match s.spaces c.pid (pageOf (c.uva + c.out.length)) with
    | none => s.answer k (.copyFrom c.pid c.uva c.len) (.refused "unmapped user address")
    | some leaf => s.goto k (.copyPiece c leaf)
  else s.answer k (.copyFrom c.pid c.uva c.len) (.copied c.out)

/-- The rest of an iteration of `copy_from_user` (lines 24–28). -/
def copyPiece (s : Sys) (k : ℕ) (c : CopyFrom) (leaf : Leaf (Option PageId)) : Sys :=
  let va := c.uva + c.out.length
  s.goto k (.copyFrom { c with
    out := c.out ++ s.mem.read (leaf.frame + va % PAGE_SIZE) (chunk c.uva c.len c.out.length) })

/-- The head of the loop of `copy_to_user` (lines 35–37). -/
def copyToHead (s : Sys) (k : ℕ) (c : CopyTo) : Sys :=
  if c.done < c.data.length then
    match s.spaces c.pid (pageOf (c.uva + c.done)) with
    | none => s.answer k (.copyTo c.pid c.uva c.data) (.refused "unmapped user address")
    | some leaf => s.goto k (.writePiece c leaf)
  else s.answer k (.copyTo c.pid c.uva c.data) .done

/-- The rest of an iteration of `copy_to_user` (lines 38–42). -/
def writePiece (s : Sys) (k : ℕ) (c : CopyTo) (leaf : Leaf (Option PageId)) : Sys :=
  let va := c.uva + c.done
  let n := chunk c.uva c.data.length c.done
  { s.goto k (.copyTo { c with done := c.done + n }) with
    mem := s.mem.write (leaf.frame + va % PAGE_SIZE) ((c.data.drop c.done).take n)
    written := (leaf, s.spaces c.pid) :: s.written }

/-! ## `reclaim` -/

/-- The entries for a page of a model are taken out (lines 310–314). -/
def unmapAll (procs index : ℕ) (mappings : List Mapping) (spaces : ℕ → PageMap (Option PageId)) :
    ℕ → PageMap (Option PageId) :=
  mappings.foldl (fun spaces m =>
    if m.pid < procs then
      Function.update spaces m.pid ((spaces m.pid).unmap (m.base + index * PAGE_SIZE) 1)
    else spaces) spaces

/-- `reclaim` takes a page that is resident in `frame` (lines 308–319). -/
def evict (s : Sys) (id : ℕ) (mappings : List Mapping) (index frame : ℕ) : Sys :=
  { s.freeFrame frame with
    spaces := unmapAll s.procs index mappings s.spaces
    store := s.store.modify id (Model.evicted index)
    resident := s.resident - 1
    reads := Function.update s.reads ⟨id, index⟩ 0 }

/-- The loop of `reclaim` over the pages of a model (lines 300–320), from page `n - 1` down. -/
def reclaimPages (want id : ℕ) (mappings : List Mapping) : (n freed : ℕ) → Sys → ℕ × Sys
  | 0, freed, s => (freed, s)
  | index + 1, freed, s =>
    if freed = want then (freed, s)
    else match s.store.pageAt id index with
      | some (.resident frame) =>
        reclaimPages want id mappings index (freed + 1) (s.evict id mappings index frame)
      | _ => reclaimPages want id mappings index freed s

/-- `reclaim` (lines 290–323). -/
def reclaim (s : Sys) (want : ℕ) : ℕ × Sys :=
  s.store.models.foldl (fun (freed, s) m =>
    reclaimPages want m.id m.mappings m.pages.length freed s) (0, s)

/-! ## The system -/

/-- `sys_model_map` (`syscall.rs`, lines 312–331). -/
def modelMap (s : Sys) (pid id uva : ℕ) : Sys :=
  if uva % PAGE_SIZE ≠ 0 then s
  else match s.store.attach id pid uva with
    | .error _ => s
    | .ok (size, store) =>
      { s with
        store := store
        vmas := Function.update s.vmas pid
          (s.vmas pid ++ [⟨uva, (size + PAGE_SIZE - 1) / PAGE_SIZE, .model id⟩]) }

/-- The next step of thread `k`. -/
def advance (disk : Disk) (s : Sys) (k : ℕ) (io : ℕ → Bool) (room : ℕ) : Pc → Option Sys
  | .user => none
  | .faulting c => some (s.lookUp k c)
  | .claimed c => some (s.readIn disk k c io)
  | .failed c => some (s.giveUp k c)
  | .loaded c frame => some (s.publish k c frame)
  | .mapping c frame => some (s.mapInto k c frame room)
  | .copyFrom c => some (s.copyFromHead k c)
  | .copyPiece c leaf => some (s.copyPiece k c leaf)
  | .copyTo c => some (s.copyToHead k c)
  | .writePiece c leaf => some (s.writePiece k c leaf)

/-- A thread runs for a process that exists, and is in one call at a time. -/
def step (disk : Disk) (s : Sys) : Act → Option Sys
  | .create => some { s with procs := s.procs + 1 }
  | .openModel start size io =>
    some (match hashFile (readSector disk io) start size with
      | none => s
      | some hash => { s with store := (s.store.enter hash start size).2 })
  | .modelMap pid id uva => if pid < s.procs then some (s.modelMap pid id uva) else none
  | .load k pid va => if s.pc k = .user ∧ pid < s.procs then some (s.load k pid va) else none
  | .copyFrom k pid uva len =>
    if s.pc k = .user ∧ pid < s.procs then
      some (if MAX_TRANSFER < len then
          s.answer k (.copyFrom pid uva len) (.refused "transfer too large")
        else s.goto k (.copyFrom ⟨pid, uva, len, []⟩))
    else none
  | .copyTo k pid uva data =>
    if s.pc k = .user ∧ pid < s.procs then some (s.goto k (.copyTo ⟨pid, uva, data, 0⟩)) else none
  | .run k io room => s.advance disk k io room (s.pc k)
  | .reclaim want => some (s.reclaim want).2
  | .take =>
    match s.frames.alloc s.mem with
    | (none, frames) => some { s with frames := frames }
    | (some frame, frames) => some { s with frames := frames, others := frame :: s.others }
  | .write frame page =>
    if frame ∈ s.others ∨ frame ∈ s.pinned then
      some { s with mem := Function.update s.mem frame page }
    else none
  | .release frame =>
    if frame ∈ s.others then
      some { s.freeFrame frame with others := s.others.filter (· ≠ frame) }
    else none
  | .map pid va frame perm room =>
    if pid < s.procs ∧ (frame ∈ s.others ∨ frame ∈ s.pinned) then
      some { s.setSpace pid ((s.spaces pid).map va frame 1 perm none room).2 with
        others := s.others.filter (· ≠ frame)
        pinned := frame :: s.pinned }
    else none

/-- At boot, after `frames::init`: no model, no process, and the rest of the kernel has its frames. -/
structure Init (s : Sys) : Prop where
  store : s.store = .boot
  resident : s.resident = 0
  procs : s.procs = 0
  spaces : ∀ pid page, s.spaces pid page = none
  vmas : ∀ pid, s.vmas pid = []
  frames : s.frames.WF s.mem
  others : ∀ f ∈ s.others, s.frames.Used s.mem f
  pinned : s.pinned = []
  pc : ∀ k, s.pc k = .user
  written : s.written = []
  log : s.log = []
  reads : ∀ q, s.reads q = 0

end Sys

/-- A machine at boot with frames from `0x1000` on. -/
def demoBoot : Sys where
  store := .boot
  resident := 0
  sharedHits := 0
  procs := 0
  spaces := fun _ _ => none
  vmas := fun _ => []
  frames := ⟨0x1000, 0x100000, [], 0, 0⟩
  mem := fun _ => Vector.replicate PAGE_SIZE 0
  others := []
  pinned := []
  pc := fun _ => .user
  written := []
  log := []
  reads := fun _ => 0

theorem init_demoBoot : demoBoot.Init := by
  refine ⟨rfl, rfl, rfl, fun _ _ => rfl, fun _ => rfl, ⟨by decide, by decide, rfl, List.nodup_nil, ?_⟩,
    fun f hf => ?_, rfl, fun _ => rfl, rfl, rfl, fun _ => rfl⟩
  · intro f hf
    cases hf
  · cases hf

def demoDisk : Disk := fun _ => Vector.replicate SECTOR_SIZE 0xa5

end JungeyOs.ModelStore
