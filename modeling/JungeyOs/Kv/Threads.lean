import JungeyOs.Kv.Cache
import JungeyOs.Lib.Run

/-!
# The KV cache on several threads

A model of `append`, `read` and `make_room` (`kernel/src/kv.rs`, lines 200–355) as any number
of threads run them: a step is what a thread does while it holds the cache lock, or the copy
of a sector or a frame, or a call of the frame allocator between two such sections. The rest
of the kernel takes frames, writes to them and frees them. The disk holds what was last
written; a write that returns `Err` may have landed.
-/

namespace JungeyOs.Kv

open Mm (Frames Memory Page)

/-! ## The threads -/

/-- The arguments of `read`; `len` is the length of `out`. -/
structure Request where
  id : ℕ
  index : ℕ
  len : ℕ
  deriving DecidableEq

/-- `append` has added `added` blocks and has `left` more to add after this one. -/
structure Extend where
  id : ℕ
  left : ℕ
  added : ℕ
  deriving DecidableEq

/-- `read` has found its block on flash (line 320). -/
structure Restore extends Request where
  sector : ℕ
  now : ℕ
  deriving DecidableEq

/-- Who has called `make_room`. -/
inductive Task
  | append (a : Extend)
  | restore (r : Restore)
  deriving DecidableEq

/-- What a call returned; for a `read`, also what it has copied to `out`. -/
inductive Reply
  | append (result : Except String ℕ)
  | read (q : Request) (result : Except String (Bool × List UInt8))

/-- Where a thread stands. -/
inductive Pc
  | idle
  | returned (reply : Reply)
  /-- `make_room`, before a round (line 208) -/
  | room (t : Task)
  /-- `write_out` at sector `n` (line 179) -/
  | spill (t : Task) (job : Job) (now n : ℕ)
  /-- `make_room`, after `write_out` (line 236) -/
  | settle (t : Task) (job : Job) (now : ℕ) (ok : Bool)
  /-- `append`, after `make_room` (line 258) -/
  | append (a : Extend)
  /-- `append`, before `fill` (line 276) -/
  | fill (a : Extend) (frame index : ℕ)
  /-- `read`, before it looks at the block (line 290) -/
  | look (q : Request)
  /-- `read`, with the state of the block (line 304) -/
  | found (q : Request) (b : Block)
  /-- `read`, after `make_room` (line 323) -/
  | alloc (r : Restore)
  /-- `read`, before sector `n` is read (line 327) -/
  | load (r : Restore) (frame n : ℕ)
  /-- `read`, with the block in memory again (line 341) -/
  | publish (r : Restore) (frame : ℕ)
  /-- `read`, before the copy to `out` (lines 315 and 350) -/
  | copy (q : Request) (frame : ℕ) (hit : Bool)

/-- A thread that is not in a call. -/
def Pc.free : Pc → Bool
  | .idle => true
  | .returned _ => true
  | _ => false

/-- Where `make_room` returns to. -/
def Task.next : Task → Pc
  | .append a => .append a
  | .restore r => .alloc r

/-- The loop of `append` (lines 255–256 and 279). -/
def extend (id added : ℕ) : ℕ → Pc
  | 0 => .returned (.append (.ok added))
  | left + 1 => .room (.append ⟨id, left, added⟩)

/-! ## The system -/

/-- `others` are the frames that the rest of the kernel holds. -/
structure Sys where
  cache : Cache
  frames : Frames
  mem : Memory
  disk : Disk
  others : List ℕ
  pc : ℕ → Pc

/-- What becomes of a call of the block driver: `Ok`, or `Err`, where a write may have landed. -/
inductive Io
  | ok
  | lost
  | landed
  deriving DecidableEq

/-- `run k now io` is the next step of thread `k`; `now` is what `time::ticks` returns. -/
inductive Act
  | openSession (owner model now : ℕ)
  | append (k id count : ℕ)
  | read (k : ℕ) (q : Request)
  | run (k now : ℕ) (io : Io)
  | take
  | write (frame : ℕ) (page : Page)
  | release (frame : ℕ)

namespace Sys

def goto (s : Sys) (k : ℕ) (pc : Pc) : Sys := { s with pc := Function.update s.pc k pc }

/-- `frames::free`. -/
def freeFrame (s : Sys) (frame : ℕ) : Sys :=
  { s with frames := (s.frames.free s.mem frame).1, mem := (s.frames.free s.mem frame).2 }

/-- `make_room` under the lock, at the start of a round (lines 208–233). -/
def chooseVictim (s : Sys) (k : ℕ) (t : Task) (now : ℕ) : Sys :=
  match s.cache.choose 1 now with
  | none => s.goto k t.next
  | some (job, cache) => { s.goto k (.spill t job now 0) with cache := cache }

/-- Sector `n` of `write_out` (lines 179–191). -/
def spillSector (s : Sys) (k : ℕ) (t : Task) (job : Job) (now n : ℕ) (io : Io) : Sys :=
  let disk := if io = .lost then s.disk else
    Function.update s.disk (job.sector + n) (sectorOf (s.mem job.frame) n)
  let pc := if io = .ok then
      if n + 1 = SECTORS_PER_BLOCK then .settle t job now true else .spill t job now (n + 1)
    else .settle t job now false
  { s.goto k pc with disk := disk }

/-- `make_room` under the lock, at the end of a round (lines 236–249). -/
def settleSpill (s : Sys) (k : ℕ) (t : Task) (job : Job) (now : ℕ) (ok : Bool) : Sys :=
  let s' := { s with cache := s.cache.settle job ok now }
  if ok then (s'.freeFrame job.frame).goto k (.room t) else s'.goto k t.next

/-- `append` under the lock (lines 258–274). -/
def appendBlock (s : Sys) (k : ℕ) (a : Extend) (now : ℕ) : Sys :=
  let (frame, frames) :=
    if BUDGET_BLOCKS ≤ s.cache.residentBlocks then (none, s.frames) else s.frames.alloc s.mem
  let s' := { s with frames := frames }
  match frame, s.cache.push a.id frame now with
  | none, .error why => s'.goto k (.returned (.append (.error why)))
  | some frame, .error why => (s'.freeFrame frame).goto k (.returned (.append (.error why)))
  | some frame, .ok cache =>
    { s'.goto k (.fill a frame (s.cache.blocks (s.cache.find a.id))) with cache := cache }
  | none, .ok _ => s'

/-- `fill` (line 276). -/
def fillFrame (s : Sys) (k : ℕ) (a : Extend) (frame index : ℕ) : Sys :=
  { s.goto k (extend a.id (a.added + 1) a.left) with
    mem := Function.update s.mem frame (filled a.id index) }

/-- `read` under the lock, looking at its block (lines 291–302). -/
def lookAt (s : Sys) (k : ℕ) (q : Request) (now : ℕ) : Sys :=
  match s.cache.look q.id q.index now with
  | (.error why, cache) => { s.goto k (.returned (.read q (.error why))) with cache := cache }
  | (.ok (.spilling _ _), cache) => { s with cache := cache }
  | (.ok b, cache) => { s.goto k (.found q b) with cache := cache }

/-- `read` with the state that it found (lines 304–314 and 319–320). -/
def takeUp (s : Sys) (k : ℕ) (q : Request) (now : ℕ) : Block → Option Sys
  | .resident frame _ =>
    some { s.goto k (.copy q frame true) with cache := s.cache.hit q.id q.index frame now }
  | .spilling _ _ => none
  | .spilled sector => some (s.goto k (.room (.restore ⟨q, sector, now⟩)))

/-- `frames::alloc` for a block that is on flash (lines 321–323). -/
def allocFrame (s : Sys) (k : ℕ) (r : Restore) : Sys :=
  match s.frames.alloc s.mem with
  | (none, frames) =>
    { s.goto k (.returned (.read r.toRequest (.error "out of memory restoring a block"))) with
      frames := frames }
  | (some frame, frames) => { s.goto k (.load r frame 0) with frames := frames }

/-- Sector `n` of a block that is read back (lines 325–338). -/
def loadSector (s : Sys) (k : ℕ) (r : Restore) (frame n : ℕ) (io : Io) : Sys :=
  if io = .ok then
    { s.goto k (if n + 1 = SECTORS_PER_BLOCK then .publish r frame else .load r frame (n + 1)) with
      mem := Function.update s.mem frame
        (Bytes.blit (s.mem frame) (n * SECTOR_SIZE) (s.disk (r.sector + n))) }
  else (s.freeFrame frame).goto k
    (.returned (.read r.toRequest (.error "could not read a spilled block back")))

/-- `read` under the lock, with the block in memory again (lines 341–348). -/
def publishBlock (s : Sys) (k : ℕ) (r : Restore) (frame : ℕ) : Sys :=
  { s.goto k (.copy r.toRequest frame false) with
    cache := s.cache.publish r.id r.index frame r.now }

/-- The copy to `out` (lines 315–318 and 350–352). -/
def copyOut (s : Sys) (k : ℕ) (q : Request) (frame : ℕ) (hit : Bool) : Sys :=
  s.goto k (.returned (.read q (.ok (hit, (s.mem frame).toList.take q.len))))

/-- The next step of thread `k`. -/
def advance (s : Sys) (k now : ℕ) (io : Io) : Pc → Option Sys
  | .idle => none
  | .returned _ => none
  | .room t => some (s.chooseVictim k t now)
  | .spill t job now n => some (s.spillSector k t job now n io)
  | .settle t job now ok => some (s.settleSpill k t job now ok)
  | .append a => some (s.appendBlock k a now)
  | .fill a frame index => some (s.fillFrame k a frame index)
  | .look q => some (s.lookAt k q now)
  | .found q b => s.takeUp k q now b
  | .alloc r => some (s.allocFrame k r)
  | .load r frame n => some (s.loadSector k r frame n io)
  | .publish r frame => some (s.publishBlock k r frame)
  | .copy q frame hit => some (s.copyOut k q frame hit)

def step (s : Sys) : Act → Option Sys
  | .openSession owner model now =>
    some { s with cache := s.cache.openSession owner model now }
  | .append k id count => if (s.pc k).free then some (s.goto k (extend id 0 count)) else none
  | .read k q => if (s.pc k).free then some (s.goto k (.look q)) else none
  | .run k now io => s.advance k now io (s.pc k)
  | .take =>
    match s.frames.alloc s.mem with
    | (none, frames) => some { s with frames := frames }
    | (some frame, frames) => some { s with frames := frames, others := frame :: s.others }
  | .write frame page =>
    if frame ∈ s.others then some { s with mem := Function.update s.mem frame page } else none
  | .release frame =>
    if frame ∈ s.others then
      some { s.freeFrame frame with others := s.others.filter (· ≠ frame) }
    else none

end Sys

end JungeyOs.Kv
