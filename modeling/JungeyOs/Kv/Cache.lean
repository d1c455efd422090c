import JungeyOs.Blk
import JungeyOs.Mm.Frames

/-!
# The KV cache

Models of `kernel/src/kv.rs`: what its functions do to the cache while they hold the
cache lock, and `write_out`. A block is in a frame, on its way to flash, or on flash.

Results:
* `victim_resident`: `make_room` only evicts resident blocks.
* `blockAt_set`, `blockAt_append`, `blockAt_modify`: what a change of one session does to
  the blocks.
* `heldBlocks_set`, `heldBlocks_append`: what it does to the number of blocks with a frame.
* `choose_some`, `blockAt_settle`, `push_ok`, `blockAt_publish`: what the calls do to the blocks.
-/

namespace JungeyOs.Kv

open Mm (Page PAGE_SIZE)

/-- `BLOCK_BYTES` (line 34). -/
def BLOCK_BYTES : ℕ := PAGE_SIZE

/-- `SECTORS_PER_BLOCK` (line 35). -/
def SECTORS_PER_BLOCK : ℕ := BLOCK_BYTES / SECTOR_SIZE

/-- `BUDGET_BLOCKS` (line 40). -/
def BUDGET_BLOCKS : ℕ := 64

/-- `PREFIX_BLOCKS` (line 44). -/
def PREFIX_BLOCKS : ℕ := 4

/-- `Block` (lines 46–58). -/
inductive Block
  | resident (frame usedTick : ℕ)
  | spilling (frame sector : ℕ)
  | spilled (sector : ℕ)
  deriving DecidableEq

/-- The frame that holds the block. -/
def Block.frame : Block → Option ℕ
  | .resident frame _ => some frame
  | .spilling frame _ => some frame
  | .spilled _ => none

/-- `Session` (lines 60–70). -/
structure Session where
  id : ℕ
  owner : ℕ
  model : ℕ
  blocks : List Block
  createdTick : ℕ
  lastTick : ℕ
  hits : ℕ
  spills : ℕ
  restores : ℕ

/-- `Cache` (lines 96–103). -/
structure Cache where
  sessions : List Session
  nextId : ℕ
  residentBlocks : ℕ
  spillNext : ℕ
  spillEnd : ℕ

/-- `pattern` (lines 126–132). -/
def pattern (session index offset : ℕ) : UInt8 :=
  ((UInt64.ofNat session * 1103515245 + UInt64.ofNat index * 12345 + UInt64.ofNat offset * 31)
    >>> 3).toUInt8

/-- What `fill` (lines 134–139) writes to the frame of a block. -/
def filled (session index : ℕ) : Page := Vector.ofFn fun o => pattern session index o

/-- Sector `n` of a block. -/
def sectorOf (page : Page) (n : ℕ) : Sector := Bytes.slice page (n * SECTOR_SIZE) SECTOR_SIZE

/-- `write_out` (lines 177–193) of a frame that holds `page`. -/
def writeOut (page : Page) (sector : ℕ) : Blk Bool := do
  match ← Blk.attempt (Blk.forRange SECTORS_PER_BLOCK fun n =>
      Blk.writeSector (sector + n) (sectorOf page n)) with
  | .ok _ => pure true
  | .error _ => pure false

/-- `eviction_score` (lines 165–174). -/
def evictionScore (index usedTick now : ℕ) : ℕ :=
  let age := now - usedTick
  if index < PREFIX_BLOCKS then age / 8 else age + 1000

namespace Cache

/-- `CACHE` after `init` (lines 105–122). -/
def init (spillStart spillSectors : ℕ) : Cache := ⟨[], 1, 0, spillStart, spillStart + spillSectors⟩

/-- The position that a search for the session finds; no position if there is none. -/
def find (c : Cache) (id : ℕ) : ℕ := c.sessions.findIdx (·.id = id)

/-- A change of one session. -/
def modify (c : Cache) (si : ℕ) (f : Session → Session) : Cache :=
  { c with sessions := c.sessions.modify si f }

/-- `open` (lines 141–158). -/
def openSession (c : Cache) (owner model now : ℕ) : Cache :=
  { c with
    nextId := c.nextId + 1
    sessions := c.sessions ++ [⟨c.nextId, owner, model, [], now, now, 0, 0, 0⟩] }

/-! ## The victim (lines 215–226) -/

/-- The blocks that could be evicted, with their scores and frames. -/
def candidates (c : Cache) (now : ℕ) : List (ℕ × ℕ × ℕ × ℕ) :=
  c.sessions.zipIdx.flatMap fun (s, si) => s.blocks.zipIdx.filterMap fun (b, bi) =>
    match b with
    | .resident frame usedTick => some (si, bi, evictionScore bi usedTick now, frame)
    | _ => none

/-- The first of the candidates with the highest score. -/
def worst (victim : Option (ℕ × ℕ × ℕ × ℕ)) (x : ℕ × ℕ × ℕ × ℕ) : Option (ℕ × ℕ × ℕ × ℕ) :=
  match victim with
  | none => some x
  | some v => if v.2.2.1 < x.2.2.1 then some x else some v

def victim (c : Cache) (now : ℕ) : Option (ℕ × ℕ × ℕ × ℕ) := (c.candidates now).foldl worst none

end Cache

/-- A spill that `make_room` has decided on (line 232). -/
structure Job where
  si : ℕ
  bi : ℕ
  frame : ℕ
  sector : ℕ

namespace Cache

/-- `make_room` under the lock, at the start of a round (lines 209–233). -/
def choose (c : Cache) (want now : ℕ) : Option (Job × Cache) :=
  if c.residentBlocks + want ≤ BUDGET_BLOCKS then none
  else match c.victim now with
    | none => none
    | some (si, bi, _, frame) =>
      if c.spillEnd < c.spillNext + SECTORS_PER_BLOCK then none
      else
        let sector := c.spillNext
        some (⟨si, bi, frame, sector⟩,
          { c.modify si fun x => { x with blocks := x.blocks.set bi (.spilling frame sector) } with
            spillNext := c.spillNext + SECTORS_PER_BLOCK })

/-- `make_room` under the lock, at the end of a round (lines 235–249); `ok` is what
`write_out` returned. -/
def settle (c : Cache) (job : Job) (ok : Bool) (now : ℕ) : Cache :=
  if ok then
    { c.modify job.si fun x =>
        { x with blocks := x.blocks.set job.bi (.spilled job.sector), spills := x.spills + 1 } with
      residentBlocks := c.residentBlocks - 1 }
  else c.modify job.si fun x => { x with blocks := x.blocks.set job.bi (.resident job.frame now) }

/-! ## Appending and reading, under the lock -/

/-- `append` for one block (lines 258–274); `frame` is what `frames::alloc` returned. -/
def push (c : Cache) (id : ℕ) (frame : Option ℕ) (now : ℕ) : Except String Cache :=
  if BUDGET_BLOCKS ≤ c.residentBlocks then
    .error "cache is full and nothing could be evicted"
  else match frame with
    | none => .error "out of memory"
    | some frame =>
      match c.sessions[c.find id]? with
      | none => .error "no such session"
      | some _ => .ok
        { c.modify (c.find id) fun x =>
            { x with blocks := x.blocks ++ [.resident frame now], lastTick := now } with
          residentBlocks := c.residentBlocks + 1 }

/-- `read` looking at a block (lines 293–296). -/
def look (c : Cache) (id index now : ℕ) : Except String Block × Cache :=
  match c.sessions[c.find id]? with
  | none => (.error "no such session", c)
  | some x =>
    (match x.blocks[index]? with
      | none => .error "no such block"
      | some b => .ok b,
      c.modify (c.find id) fun x => { x with lastTick := now })

/-- `read` of a block that was resident (lines 308–314). -/
def hit (c : Cache) (id index frame now : ℕ) : Cache :=
  c.modify (c.find id) fun x =>
    { x with hits := x.hits + 1, blocks := x.blocks.set index (.resident frame now) }

/-- `read` of a block that was on flash, once it is in `frame` (lines 341–348). -/
def publish (c : Cache) (id index frame now : ℕ) : Cache :=
  { c.modify (c.find id) fun x =>
      { x with blocks := x.blocks.set index (.resident frame now), restores := x.restores + 1 } with
    residentBlocks := c.residentBlocks + 1 }

/-! ## The blocks -/

/-- Block `i` of the session at position `k`. -/
def blockAt (c : Cache) (k i : ℕ) : Option Block := (c.sessions[k]?).bind (·.blocks[i]?)

/-- The number of blocks of the session at position `k`. -/
def blocks (c : Cache) (k : ℕ) : ℕ := ((c.sessions[k]?).map fun x => x.blocks.length).getD 0

/-- The block has the frame. -/
def Holds (c : Cache) (k i f : ℕ) : Prop := ∃ b, c.blockAt k i = some b ∧ b.frame = some f

/-- The number of blocks that have a frame. -/
def heldBlocks (c : Cache) : ℕ := (c.sessions.map fun x => x.blocks.countP (·.frame.isSome)).sum

/-- Sessions are numbered from 1 in the order of their positions. -/
structure Numbered (c : Cache) : Prop where
  ids : ∀ k x, c.sessions[k]? = some x → x.id = k + 1
  next : c.nextId = c.sessions.length + 1

section

variable {c : Cache} {k k' i i' now : ℕ} {b : Block} {g : Session → Session} {x : Session}

theorem candidates_resident {v : ℕ × ℕ × ℕ × ℕ} (h : v ∈ c.candidates now) :
    ∃ usedTick, c.blockAt v.1 v.2.1 = some (.resident v.2.2.2 usedTick) := by
  obtain ⟨⟨x, si⟩, hx, hv⟩ := List.mem_flatMap.mp h
  obtain ⟨⟨b, bi⟩, hb, hsome⟩ := List.mem_filterMap.mp hv
  have hx' : c.sessions[si]? = some x := (List.mem_zipIdx_iff_getElem?).mp hx
  have hb' : x.blocks[bi]? = some b := (List.mem_zipIdx_iff_getElem?).mp hb
  cases b with
  | resident frame usedTick =>
    cases hsome
    exact ⟨usedTick, by rw [blockAt, hx', Option.bind_some, hb']⟩
  | spilling frame sector => cases hsome
  | spilled sector => cases hsome

theorem worst_mem {l : List (ℕ × ℕ × ℕ × ℕ)} {v : ℕ × ℕ × ℕ × ℕ} :
    ∀ {start : Option (ℕ × ℕ × ℕ × ℕ)}, l.foldl worst start = some v → start = some v ∨ v ∈ l := by
  induction l with
  | nil => exact fun h => .inl h
  | cons x l ih =>
    intro start h
    rcases ih h with h | h
    · cases start with
      | none =>
        cases h
        exact .inr List.mem_cons_self
      | some w =>
        simp only [worst] at h
        split_ifs at h
        · cases h
          exact .inr List.mem_cons_self
        · exact .inl h
    · exact .inr (List.mem_cons_of_mem _ h)

/-- `make_room` only evicts resident blocks. -/
theorem victim_resident {si bi score frame : ℕ} (h : c.victim now = some (si, bi, score, frame)) :
    ∃ usedTick, c.blockAt si bi = some (.resident frame usedTick) := by
  rcases worst_mem h with h | h
  · cases h
  · exact candidates_resident h

/-! ## Changes of one session -/

theorem modify_get (c : Cache) (k k' : ℕ) (g : Session → Session) :
    (c.modify k g).sessions[k']? = (c.sessions[k']?).map fun x => if k = k' then g x else x := by
  rw [modify, List.getElem?_modify]
  rfl

/-- A change that keeps the blocks. -/
theorem blockAt_modify (hg : ∀ x, (g x).blocks = x.blocks) (k' i' : ℕ) :
    (c.modify k g).blockAt k' i' = c.blockAt k' i' := by
  rw [blockAt, blockAt, modify_get]
  cases c.sessions[k']? with
  | none => rfl
  | some x =>
    simp only [Option.map_some, Option.bind_some]
    split_ifs
    · rw [hg]
    · rfl

/-- A block changes. -/
theorem blockAt_set (hg : ∀ x, (g x).blocks = x.blocks.set i b) {old : Block}
    (hold : c.blockAt k i = some old) (k' i' : ℕ) :
    (c.modify k g).blockAt k' i' = if k' = k ∧ i' = i then some b else c.blockAt k' i' := by
  obtain ⟨x, hx, hi⟩ := Option.bind_eq_some_iff.mp hold
  obtain ⟨hlt, -⟩ := List.getElem?_eq_some_iff.mp hi
  rw [blockAt, blockAt, modify_get]
  by_cases hk : k' = k
  · subst hk
    rw [hx]
    simp only [Option.map_some, Option.bind_some, if_true, hg, List.getElem?_set, true_and]
    by_cases hi' : i = i'
    · subst hi'
      simp [hlt]
    · simp [hi', Ne.symm hi']
  · simp only [if_neg (Ne.symm hk), hk, false_and, if_false, Option.map_id']

/-- A session gets another block. -/
theorem blockAt_append (hg : ∀ x, (g x).blocks = x.blocks ++ [b]) (hx : c.sessions[k]? = some x)
    (k' i' : ℕ) : (c.modify k g).blockAt k' i' =
      if k' = k ∧ i' = x.blocks.length then some b else c.blockAt k' i' := by
  rw [blockAt, blockAt, modify_get]
  by_cases hk : k' = k
  · subst hk
    rw [hx]
    simp only [Option.map_some, Option.bind_some, if_true, hg, true_and]
    rcases Nat.lt_trichotomy i' x.blocks.length with hlt | rfl | hgt
    · rw [List.getElem?_append_left hlt, if_neg (Nat.ne_of_lt hlt)]
    · simp
    · rw [if_neg (Nat.ne_of_gt hgt), List.getElem?_eq_none (by simp; omega),
        List.getElem?_eq_none hgt.le]
  · simp only [if_neg (Ne.symm hk), hk, false_and, if_false, Option.map_id']

/-- A new session has no blocks. -/
theorem blockAt_openSession (c : Cache) (owner model now k i : ℕ) :
    (c.openSession owner model now).blockAt k i = c.blockAt k i := by
  rw [blockAt, blockAt, openSession]
  rcases Nat.lt_trichotomy k c.sessions.length with hlt | rfl | hgt
  · rw [List.getElem?_append_left hlt]
  · simp
  · rw [List.getElem?_eq_none (by simp; omega), List.getElem?_eq_none hgt.le]

theorem Numbered.modify (h : c.Numbered) (hg : ∀ x, (g x).id = x.id) : (c.modify k g).Numbered := by
  refine ⟨fun k' x hx => ?_, by simpa [Cache.modify] using h.next⟩
  rw [modify_get] at hx
  obtain ⟨y, hy, rfl⟩ := Option.map_eq_some_iff.mp hx
  split_ifs
  · rw [hg, h.ids k' y hy]
  · exact h.ids k' y hy

theorem Numbered.openSession (h : c.Numbered) (owner model now : ℕ) :
    (c.openSession owner model now).Numbered := by
  refine ⟨fun k x hx => ?_, by simpa [Cache.openSession] using h.next⟩
  rw [Cache.openSession, List.getElem?_append] at hx
  split_ifs at hx with hlt
  · exact h.ids k x hx
  · obtain ⟨h0, hx⟩ := List.getElem?_eq_some_iff.mp hx
    simp only [List.length_singleton] at h0
    rw [← hx]
    simp only [List.getElem_singleton]
    rw [h.next]
    omega

/-- A session that is found has the number that was looked for. -/
theorem Numbered.find_add_one (h : c.Numbered) {id : ℕ} (hx : c.sessions[c.find id]? = some x) :
    c.find id + 1 = id := by
  obtain ⟨hlt, rfl⟩ := List.getElem?_eq_some_iff.mp hx
  have hid : c.sessions[c.find id].id = id :=
    of_decide_eq_true (List.findIdx_getElem (p := fun x : Session => decide (x.id = id)) (w := hlt))
  rw [← h.ids _ _ hx, hid]

theorem Numbered.find_of_blockAt (h : c.Numbered) {id : ℕ} (hb : c.blockAt (c.find id) i = some b) :
    c.find id + 1 = id := by
  obtain ⟨x, hx, -⟩ := Option.bind_eq_some_iff.mp hb
  exact h.find_add_one hx

/-! ## The number of blocks with a frame -/

theorem heldBlocks_modify (hg : ∀ x, (g x).blocks = x.blocks) :
    (c.modify k g).heldBlocks = c.heldBlocks := by
  have hcount : (fun x : Session => x.blocks.countP (·.frame.isSome)) ∘ g =
      fun x => x.blocks.countP (·.frame.isSome) := funext fun x => by simp [hg]
  rw [heldBlocks, heldBlocks, modify]
  dsimp only
  generalize c.sessions = l
  induction l generalizing k with
  | nil => cases k <;> rfl
  | cons y l ih =>
    cases k with
    | zero => simp [hg]
    | succ k => simpa using ih

theorem heldBlocks_openSession (c : Cache) (owner model now : ℕ) :
    (c.openSession owner model now).heldBlocks = c.heldBlocks := by
  simp [heldBlocks, openSession]

/-- The number of blocks with a frame, when one session changes. -/
theorem heldBlocks_modify_add (hx : c.sessions[k]? = some x) :
    (c.modify k g).heldBlocks + x.blocks.countP (·.frame.isSome) =
      c.heldBlocks + (g x).blocks.countP (·.frame.isSome) := by
  rw [heldBlocks, heldBlocks, modify]
  dsimp only
  generalize c.sessions = l at hx
  induction l generalizing k with
  | nil => cases hx
  | cons y l ih =>
    cases k with
    | zero =>
      cases hx
      simp only [List.modify_zero_cons, List.map_cons, List.sum_cons]
      omega
    | succ k =>
      have := ih (k := k) hx
      simp only [List.modify_succ_cons, List.map_cons, List.sum_cons]
      omega

theorem heldBlocks_set (hg : ∀ x, (g x).blocks = x.blocks.set i b) {old : Block}
    (hold : c.blockAt k i = some old) :
    (c.modify k g).heldBlocks + (if old.frame.isSome then 1 else 0) =
      c.heldBlocks + if b.frame.isSome then 1 else 0 := by
  obtain ⟨x, hx, hi⟩ := Option.bind_eq_some_iff.mp hold
  obtain ⟨hlt, rfl⟩ := List.getElem?_eq_some_iff.mp hi
  have hadd := heldBlocks_modify_add (g := g) hx
  rw [hg, List.countP_set hlt] at hadd
  -- the block that is replaced is one of those counted
  have hle : (if x.blocks[i].frame.isSome then 1 else 0) ≤ x.blocks.countP (·.frame.isSome) := by
    split_ifs with hs
    · exact List.countP_pos_iff.mpr ⟨_, List.getElem_mem hlt, hs⟩
    · exact Nat.zero_le _
  omega

theorem heldBlocks_append (hg : ∀ x, (g x).blocks = x.blocks ++ [b]) (hx : c.sessions[k]? = some x) :
    (c.modify k g).heldBlocks = c.heldBlocks + if b.frame.isSome then 1 else 0 := by
  have hadd := heldBlocks_modify_add (g := g) hx
  rw [hg, List.countP_append, List.countP_singleton] at hadd
  omega

/-! ## The calls under the lock -/

/-- `make_room` marks a resident block for a spill to the next sectors. -/
theorem choose_some {job : Job} {c' : Cache} (h : c.choose 1 now = some (job, c')) :
    ∃ usedTick, c.blockAt job.si job.bi = some (.resident job.frame usedTick) ∧
      job.sector = c.spillNext ∧
      c' = { c.modify job.si fun x =>
          { x with blocks := x.blocks.set job.bi (.spilling job.frame job.sector) } with
        spillNext := c.spillNext + SECTORS_PER_BLOCK } := by
  unfold choose at h
  split at h
  · cases h
  cases hv : c.victim now with
  | none =>
    rw [hv] at h
    cases h
  | some v =>
    obtain ⟨si, bi, score, frame⟩ := v
    rw [hv] at h
    dsimp only at h
    split at h
    · cases h
    · cases h
      obtain ⟨usedTick, hb⟩ := victim_resident hv
      exact ⟨usedTick, hb, rfl, rfl⟩

section

variable {job : Job}

theorem blockAt_settle (hold : c.blockAt job.si job.bi = some (.spilling job.frame job.sector))
    (now k' i' : ℕ) : (c.settle job true now).blockAt k' i' =
      if k' = job.si ∧ i' = job.bi then some (.spilled job.sector) else c.blockAt k' i' :=
  blockAt_set (g := fun x =>
    { x with blocks := x.blocks.set job.bi (.spilled job.sector), spills := x.spills + 1 })
    (fun _ => rfl) hold k' i'

theorem Numbered.settle (h : c.Numbered) (job : Job) (now : ℕ) :
    (c.settle job true now).Numbered := by
  have hmod := h.modify (k := job.si) (g := fun x =>
    { x with blocks := x.blocks.set job.bi (.spilled job.sector), spills := x.spills + 1 })
    fun _ => rfl
  exact ⟨hmod.ids, hmod.next⟩

theorem counted_settle (hold : c.blockAt job.si job.bi = some (.spilling job.frame job.sector))
    (h : c.residentBlocks = c.heldBlocks) (now : ℕ) :
    (c.settle job true now).residentBlocks = (c.settle job true now).heldBlocks := by
  have hcount : (c.settle job true now).heldBlocks + 1 = c.heldBlocks :=
    heldBlocks_set (g := fun x =>
      { x with blocks := x.blocks.set job.bi (.spilled job.sector), spills := x.spills + 1 })
      (fun _ => rfl) hold
  have hres : (c.settle job true now).residentBlocks = c.residentBlocks - 1 := rfl
  rw [hres, h, ← hcount, Nat.add_sub_cancel]

end

theorem push_none {c' : Cache} {id : ℕ} (h : c.push id none now = .ok c') : False := by
  unfold push at h
  split at h <;> cases h

/-- `append` gives a block that did not exist a frame. -/
theorem push_ok {c' : Cache} {id f : ℕ} (hn : c.Numbered) (hc : c.residentBlocks = c.heldBlocks)
    (h : c.push id (some f) now = .ok c') :
    c'.Numbered ∧ c'.residentBlocks = c'.heldBlocks ∧ c'.spillNext = c.spillNext ∧
      c.find id + 1 = id ∧ c.blockAt (c.find id) (c.blocks (c.find id)) = none ∧
      ∀ k' i', c'.blockAt k' i' = if k' = c.find id ∧ i' = c.blocks (c.find id) then
        some (.resident f now) else c.blockAt k' i' := by
  unfold push at h
  split at h
  · cases h
  · dsimp only at h
    cases hx : c.sessions[c.find id]? with
    | none =>
      rw [hx] at h
      cases h
    | some x =>
      rw [hx] at h
      cases h
      have hlen : c.blocks (c.find id) = x.blocks.length := by
        rw [blocks, hx]
        rfl
      have hmod := hn.modify (k := c.find id) (g := fun x =>
        { x with blocks := x.blocks ++ [.resident f now], lastTick := now }) fun _ => rfl
      have hcount := heldBlocks_append (g := fun x : Session =>
        { x with blocks := x.blocks ++ [.resident f now], lastTick := now }) (fun _ => rfl) hx
      rw [hlen]
      refine ⟨⟨hmod.ids, hmod.next⟩, (congrArg (· + 1) hc).trans hcount.symm, rfl,
        hn.find_add_one hx, ?_, blockAt_append (g := fun x : Session =>
          { x with blocks := x.blocks ++ [.resident f now], lastTick := now }) (fun _ => rfl) hx⟩
      rw [blockAt, hx]
      exact List.getElem?_eq_none le_rfl

theorem blockAt_publish {id index sector : ℕ}
    (hold : c.blockAt (c.find id) index = some (.spilled sector)) (f now k' i' : ℕ) :
    (c.publish id index f now).blockAt k' i' =
      if k' = c.find id ∧ i' = index then some (.resident f now) else c.blockAt k' i' :=
  blockAt_set (g := fun x =>
    { x with blocks := x.blocks.set index (.resident f now), restores := x.restores + 1 })
    (fun _ => rfl) hold k' i'

theorem Numbered.publish (h : c.Numbered) (id index f now : ℕ) :
    (c.publish id index f now).Numbered := by
  have hmod := h.modify (k := c.find id) (g := fun x =>
    { x with blocks := x.blocks.set index (.resident f now), restores := x.restores + 1 })
    fun _ => rfl
  exact ⟨hmod.ids, hmod.next⟩

theorem counted_publish {id index sector : ℕ}
    (hold : c.blockAt (c.find id) index = some (.spilled sector))
    (h : c.residentBlocks = c.heldBlocks) (f now : ℕ) :
    (c.publish id index f now).residentBlocks = (c.publish id index f now).heldBlocks := by
  have hcount : (c.publish id index f now).heldBlocks = c.heldBlocks + 1 :=
    heldBlocks_set (g := fun x =>
      { x with blocks := x.blocks.set index (.resident f now), restores := x.restores + 1 })
      (fun _ => rfl) hold
  exact (congrArg (· + 1) h).trans hcount.symm

end

end Cache

end JungeyOs.Kv
