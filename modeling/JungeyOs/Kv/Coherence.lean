import JungeyOs.Kv.Threads
import JungeyOs.Lib.Holdings

/-!
# What the threads rely on in the KV cache

`read` acts on a block after it has let go of the cache lock, `append` shows a block before it
has filled it, and `make_room` writes a block out without the lock. A frame belongs to a block,
to the thread that reads a block back into it, or to the rest of the kernel.

Results:
* `Inv.coherent`: a read returns what `append` stored, no frame has two blocks or is free while
  a block has it, and the cache counts its blocks.
* `Moves.valid`: a step leaves alone what the other threads rely on.
* `Inv.quiet`, `Inv.written`, `Inv.freed`, `Inv.rest`: what has to be shown of a step that
  leaves the frames with their blocks.
-/

namespace JungeyOs.Kv

open Mm (Frames Memory Page)

/-! ## The claim -/

/-- The frame that the thread has still to fill. -/
def Pc.filling : Pc → Option ℕ
  | .fill _ frame _ => some frame
  | _ => none

namespace Sys

/-- Some thread has still to fill the frame. -/
def Filling (s : Sys) (frame : ℕ) : Prop := ∃ k, (s.pc k).filling = some frame

/-- What the cache is for. -/
structure Coherent (s : Sys) : Prop where
  reads : ∀ k q hit bytes, s.pc k = .returned (.read q (.ok (hit, bytes))) →
    bytes = (filled q.id q.index).toList.take q.len
  once : ∀ k i k' i' f, s.cache.Holds k i f → s.cache.Holds k' i' f → k = k' ∧ i = i'
  allocated : ∀ k i f, s.cache.Holds k i f → f ∉ s.frames.freeFrames s.mem
  counted : s.cache.residentBlocks = s.cache.heldBlocks

/-- At boot, after `init`. -/
structure Init (s : Sys) : Prop where
  cache : ∃ spillStart spillSectors, s.cache = Cache.init spillStart spillSectors
  frames : s.frames.WF s.mem
  others : ∀ f ∈ s.others, s.frames.Used s.mem f
  idle : ∀ k, s.pc k = .idle

end Sys

/-- The thread acts on its block while it is as the thread left it: a block that was resident
is marked as read while it still is, in the same frame; a block that was on flash is put in
place while it still is there; a frame is copied while the block has it and it is filled, and
a sector of it is written out when it is filled. -/
def Pc.Undisturbed (s : Sys) : Pc → Prop
  | .found q (.resident frame _) =>
    ∃ usedTick, s.cache.blockAt (s.cache.find q.id) q.index = some (.resident frame usedTick)
  | .publish r _ => s.cache.blockAt (s.cache.find r.id) r.index = some (.spilled r.sector)
  | .copy q frame _ => s.cache.Holds (s.cache.find q.id) q.index frame ∧ ¬s.Filling frame
  | .spill _ job _ _ => ¬s.Filling job.frame
  | _ => True

/-- The step is no step of a thread whose block has changed since it let go of the lock. -/
def Undisturbed (s : Sys) : Act → Prop
  | .run k _ _ => (s.pc k).Undisturbed s
  | _ => True

/-! ## The invariant -/

/-- Who can have a frame: a block, a thread that reads its block back into it, the rest of the
kernel. -/
inductive Owner
  | block (k i : ℕ)
  | thread (k : ℕ)
  | others

/-- The frame that the thread reads its block back into. -/
def Pc.frame : Pc → Option ℕ
  | .load _ frame _ => some frame
  | .publish _ frame => some frame
  | _ => none

/-- The spill that the thread has under way. -/
def Pc.job : Pc → Option Job
  | .spill _ job _ _ => some job
  | .settle _ job _ _ => some job
  | _ => none

/-- Two blocks on flash do not overlap. -/
def Apart (sector sector' : ℕ) : Prop :=
  sector + SECTORS_PER_BLOCK ≤ sector' ∨ sector' + SECTORS_PER_BLOCK ≤ sector

/-- The first `n` sectors of the block are on the disk from `sector` on. -/
def Written (disk : Disk) (id index sector n : ℕ) : Prop :=
  ∀ m < n, disk (sector + m) = sectorOf (filled id index) m

namespace Sys

def Owns (s : Sys) : Owner → ℕ → Prop
  | .block k i, f => s.cache.Holds k i f
  | .thread k, f => (s.pc k).frame = some f
  | .others, f => f ∈ s.others

/-- The block is on flash at `sector`, where no spill writes any more. -/
structure Stored (s : Sys) (id index sector : ℕ) : Prop where
  below : sector + SECTORS_PER_BLOCK ≤ s.cache.spillNext
  written : Written s.disk id index sector SECTORS_PER_BLOCK
  apart : ∀ k job, (s.pc k).job = some job → Apart job.sector sector

/-- The spill is of a block that is marked for it. -/
structure Spills (s : Sys) (job : Job) : Prop where
  marked : s.cache.blockAt job.si job.bi = some (.spilling job.frame job.sector)
  below : job.sector + SECTORS_PER_BLOCK ≤ s.cache.spillNext

end Sys

def Task.Valid (s : Sys) : Task → Prop
  | .append _ => True
  | .restore r => s.Stored r.id r.index r.sector

def Reply.Valid : Reply → Prop
  | .read q (.ok (_, bytes)) => bytes = (filled q.id q.index).toList.take q.len
  | _ => True

/-- What a thread relies on. -/
def Pc.Valid (s : Sys) : Pc → Prop
  | .returned reply => reply.Valid
  | .room t => t.Valid s
  | .spill t job _ n => t.Valid s ∧ s.Spills job ∧ n < SECTORS_PER_BLOCK ∧
      Written s.disk (job.si + 1) job.bi job.sector n ∧ (0 < n → ¬s.Filling job.frame)
  | .settle t job _ ok => t.Valid s ∧ s.Spills job ∧
      (ok → Written s.disk (job.si + 1) job.bi job.sector SECTORS_PER_BLOCK ∧
        ¬s.Filling job.frame)
  | .fill a frame index => ∃ k, a.id = k + 1 ∧ s.cache.Holds k index frame
  | .found q (.spilled sector) => s.Stored q.id q.index sector
  | .alloc r => s.Stored r.id r.index r.sector
  | .load r frame n => s.Stored r.id r.index r.sector ∧ n < SECTORS_PER_BLOCK ∧
      ∀ m < n, sectorOf (s.mem frame) m = sectorOf (filled r.id r.index) m
  | .publish r frame => s.Stored r.id r.index r.sector ∧ s.mem frame = filled r.id r.index
  | _ => True

structure Inv (s : Sys) : Prop where
  numbered : s.cache.Numbered
  counted : s.cache.residentBlocks = s.cache.heldBlocks
  frames : s.frames.WF s.mem
  owned : Holdings (s.frames.Used s.mem) s.Owns
  contents : ∀ k i f, s.cache.Holds k i f → ¬s.Filling f → s.mem f = filled (k + 1) i
  stored : ∀ k i sector, s.cache.blockAt k i = some (.spilled sector) → s.Stored (k + 1) i sector
  apart : ∀ j k job job', j ≠ k → (s.pc j).job = some job → (s.pc k).job = some job' →
    Apart job.sector job'.sector
  valid : ∀ k, (s.pc k).Valid s

section

variable {s s' : Sys} {k : ℕ} {p : Pc} {id index sector : ℕ}

theorem Inv.coherent (h : Inv s) : s.Coherent := by
  refine ⟨fun k q hit bytes hk => ?_, fun k i k' i' f hf hf' => ?_, fun k i f hf => ?_, h.counted⟩
  · have hv := h.valid k
    rw [hk] at hv
    exact hv
  · cases h.owned.apart (.block k i) (.block k' i') f hf hf'
    exact ⟨rfl, rfl⟩
  · exact (h.owned.used (.block k i) f hf).notFree

/-! ## What a step leaves alone -/

/-- Thread `k` goes to `p`, and leaves alone what the other threads rely on. -/
structure Moves (s s' : Sys) (k : ℕ) (p : Pc) : Prop where
  pc : s'.pc = Function.update s.pc k p
  next : s.cache.spillNext ≤ s'.cache.spillNext
  disk : ∀ x, s'.disk x = s.disk x ∨ ∃ job, (s.pc k).job = some job ∧ job.sector ≤ x ∧
    x < job.sector + SECTORS_PER_BLOCK
  mem : ∀ j f, j ≠ k → (s.pc j).frame = some f → s'.mem f = s.mem f
  job : ∀ job, p.job = some job → (s.pc k).job = some job ∨ s.cache.spillNext ≤ job.sector
  filling : ∀ f, p.filling = some f → (s.pc k).filling = some f ∨ ¬s.frames.Used s.mem f
  marked : ∀ j job, j ≠ k → (s.pc j).job = some job → s.Spills job →
    s'.cache.blockAt job.si job.bi = some (.spilling job.frame job.sector)
  holds : ∀ j i n f, j ≠ k → (s.pc j).filling = some f → s.cache.Holds i n f →
    s'.cache.Holds i n f

theorem Moves.stored (hm : Moves s s' k p) (h : s.Stored id index sector) :
    s'.Stored id index sector := by
  refine ⟨h.below.trans hm.next, fun m hmlt => ?_, ?_⟩
  · rcases hm.disk (sector + m) with hsame | ⟨job, hjob, hle, hlt⟩
    · rw [hsame]
      exact h.written m hmlt
    · rcases h.apart k job hjob with hb | hb <;> omega
  · rw [hm.pc]
    refine (Function.forall_update_iff s.pc fun _ q => ∀ job, q.job = some job →
      Apart job.sector sector).mpr ⟨fun job hjob => ?_, fun j _ => h.apart j⟩
    rcases hm.job job hjob with hold | hnew
    · exact h.apart k job hold
    · exact .inr (h.below.trans hnew)

theorem Moves.task (hm : Moves s s' k p) {t : Task} (h : t.Valid s) : t.Valid s' := by
  cases t with
  | append a => exact h
  | restore r => exact hm.stored h

/-- No frame that is in use comes to be filled. -/
theorem Moves.notFilling (hm : Moves s s' k p) {f : ℕ} (hf : s.frames.Used s.mem f)
    (h : ¬s.Filling f) : ¬s'.Filling f := by
  rintro ⟨j, hj⟩
  rw [hm.pc] at hj
  by_cases hjk : j = k
  · subst hjk
    rw [Function.update_self] at hj
    rcases hm.filling f hj with hold | hnew
    · exact h ⟨j, hold⟩
    · exact hnew hf
  · rw [Function.update_of_ne hjk] at hj
    exact h ⟨j, hj⟩

theorem Inv.used_of_spills (h : Inv s) {job : Job} (hs : s.Spills job) :
    s.frames.Used s.mem job.frame :=
  h.owned.used (.block job.si job.bi) job.frame ⟨_, hs.marked, rfl⟩

/-- A step leaves alone what the other threads rely on. -/
theorem Moves.valid (hm : Moves s s' k p) (h : Inv s) {j : ℕ} (hj : j ≠ k) :
    (s.pc j).Valid s' := by
  have hv := h.valid j
  -- what thread `j` has written out stays on the disk
  have hwritten : ∀ job n, (s.pc j).job = some job → n ≤ SECTORS_PER_BLOCK →
      Written s.disk (job.si + 1) job.bi job.sector n →
      Written s'.disk (job.si + 1) job.bi job.sector n := by
    intro job n hjob hn hw m hmn
    rcases hm.disk (job.sector + m) with hsame | ⟨job', hjob', hle, hlt⟩
    · rw [hsame]
      exact hw m hmn
    · rcases h.apart j k job job' hj hjob hjob' with hb | hb <;> omega
  have hspills : ∀ job, (s.pc j).job = some job → s.Spills job → s'.Spills job :=
    fun job hjob hs => ⟨hm.marked j job hj hjob hs, hs.below.trans hm.next⟩
  cases hpc : s.pc j with
  | room t =>
    rw [hpc] at hv
    exact hm.task hv
  | spill t job now n =>
    rw [hpc] at hv hwritten hspills
    obtain ⟨ht, hs, hn, hw, hf⟩ := hv
    exact ⟨hm.task ht, hspills job rfl hs, hn, hwritten job n rfl hn.le hw,
      fun h0 => hm.notFilling (h.used_of_spills hs) (hf h0)⟩
  | settle t job now ok =>
    rw [hpc] at hv hwritten hspills
    obtain ⟨ht, hs, hok⟩ := hv
    refine ⟨hm.task ht, hspills job rfl hs, fun hok' => ?_⟩
    obtain ⟨hw, hf⟩ := hok hok'
    exact ⟨hwritten job _ rfl le_rfl hw, hm.notFilling (h.used_of_spills hs) hf⟩
  | fill a frame index =>
    rw [hpc] at hv
    obtain ⟨i, hid, hheld⟩ := hv
    exact ⟨i, hid, hm.holds j i index frame hj (by rw [hpc]; rfl) hheld⟩
  | found q b =>
    rw [hpc] at hv
    cases b with
    | spilled sector => exact hm.stored hv
    | resident frame usedTick => exact hv
    | spilling frame sector => exact hv
  | alloc r =>
    rw [hpc] at hv
    exact hm.stored hv
  | load r frame n =>
    rw [hpc] at hv
    obtain ⟨hs, hn, hsectors⟩ := hv
    refine ⟨hm.stored hs, hn, ?_⟩
    rw [hm.mem j frame hj (by rw [hpc]; rfl)]
    exact hsectors
  | publish r frame =>
    rw [hpc] at hv
    refine ⟨hm.stored hv.1, ?_⟩
    rw [hm.mem j frame hj (by rw [hpc]; rfl)]
    exact hv.2
  | idle => trivial
  | append a => trivial
  | look q => trivial
  | copy q frame hit => trivial
  | returned reply =>
    rw [hpc] at hv
    exact hv

theorem Moves.apart (hm : Moves s s' k p) (h : Inv s) :
    ∀ i j job job', i ≠ j → (s'.pc i).job = some job → (s'.pc j).job = some job' →
      Apart job.sector job'.sector := by
  -- the spill of another thread is apart from the one that thread `k` goes on with or starts
  have hmoved : ∀ j job job', j ≠ k → (s.pc j).job = some job → p.job = some job' →
      Apart job.sector job'.sector := by
    intro j job job' hj hjob hjob'
    rcases hm.job job' hjob' with hold | hnew
    · exact h.apart j k job job' hj hjob hold
    · have hv := h.valid j
      cases hpc : s.pc j with
      | spill t job₁ now n =>
        rw [hpc] at hv hjob
        cases hjob
        exact .inl (hv.2.1.below.trans hnew)
      | settle t job₁ now ok =>
        rw [hpc] at hv hjob
        cases hjob
        exact .inl (hv.2.1.below.trans hnew)
      | _ =>
        rw [hpc] at hjob
        cases hjob
  intro i j job job' hij hi hj
  rw [hm.pc] at hi hj
  by_cases hik : i = k
  · subst hik
    rw [Function.update_self] at hi
    rw [Function.update_of_ne (Ne.symm hij)] at hj
    exact (hmoved j job' job (Ne.symm hij) hj hi).symm
  · rw [Function.update_of_ne hik] at hi
    by_cases hjk : j = k
    · subst hjk
      rw [Function.update_self] at hj
      exact hmoved i job job' hik hi hj
    · rw [Function.update_of_ne hjk] at hj
      exact h.apart i j job job' hij hi hj

/-- What a step has to keep. -/
theorem Inv.move (h : Inv s) (hm : Moves s s' k p) (hnumbered : s'.cache.Numbered)
    (hcounted : s'.cache.residentBlocks = s'.cache.heldBlocks) (hframes : s'.frames.WF s'.mem)
    (howned : Holdings (s'.frames.Used s'.mem) s'.Owns)
    (hcontents : ∀ k i f, s'.cache.Holds k i f → ¬s'.Filling f → s'.mem f = filled (k + 1) i)
    (hstored : ∀ k i sector, s'.cache.blockAt k i = some (.spilled sector) →
      s'.Stored (k + 1) i sector)
    (hvalid : p.Valid s') : Inv s' := by
  refine ⟨hnumbered, hcounted, hframes, howned, hcontents, hstored, hm.apart h, ?_⟩
  rw [hm.pc]
  exact (Function.forall_update_iff s.pc fun _ q => q.Valid s').mpr
    ⟨hvalid, fun j hj => hm.valid h hj⟩

/-! ## Steps that leave every frame with its owner -/

/-- The blocks keep their frames, and no block goes to flash. -/
structure Alike (c c' : Cache) : Prop where
  numbered : c'.Numbered
  counted : c'.residentBlocks = c'.heldBlocks
  next : c.spillNext ≤ c'.spillNext
  holds : ∀ k i f, c'.Holds k i f ↔ c.Holds k i f
  stored : ∀ k i sector, c'.blockAt k i = some (.spilled sector) →
    c.blockAt k i = some (.spilled sector)

theorem Inv.alike (h : Inv s) : Alike s.cache s.cache :=
  ⟨h.numbered, h.counted, le_rfl, fun _ _ _ => .rfl, fun _ _ _ hb => hb⟩

/-- Thread `k` fills a frame after the step if it did before. -/
theorem filling_update (hpc : s'.pc = Function.update s.pc k p)
    (hfilling : (s.pc k).filling = none ∨ p.filling = (s.pc k).filling) {f : ℕ}
    (h : s.Filling f) : s'.Filling f := by
  obtain ⟨j, hj⟩ := h
  rw [Sys.Filling, hpc]
  by_cases hjk : j = k
  · subst hjk
    rcases hfilling with hnone | hsame
    · rw [hnone] at hj
      cases hj
    · exact ⟨j, by rw [Function.update_self, hsame, hj]⟩
  · exact ⟨j, by rw [Function.update_of_ne hjk, hj]⟩

/-- A block that no thread was to fill before the step still holds what `append` stored. -/
theorem Inv.contents_of (h : Inv s) (hpc : s'.pc = Function.update s.pc k p)
    (hfilling : (s.pc k).filling = none ∨ p.filling = (s.pc k).filling) {i n f : ℕ}
    (hb : s.cache.Holds i n f) (hmem : s'.mem f = s.mem f) (hf : ¬s'.Filling f) :
    s'.mem f = filled (i + 1) n :=
  hmem.trans (h.contents i n f hb fun hfill => hf (filling_update hpc hfilling hfill))

/-- Who owns a frame after thread `k` went to `p`: a block, thread `k`, or who did before. -/
theorem owns_cases (hpc : s'.pc = Function.update s.pc k p) (hothers : s'.others = s.others)
    {o : Owner} {f : ℕ} (ho : s'.Owns o f) :
    (∃ i n, o = .block i n ∧ s'.cache.Holds i n f) ∨ o = .thread k ∧ p.frame = some f ∨
      s.Owns o f ∧ o ≠ .thread k ∧ ∀ i n, o ≠ .block i n := by
  cases o with
  | block i n => exact .inl ⟨i, n, rfl, ho⟩
  | thread j =>
    rw [Sys.Owns, hpc] at ho
    by_cases hj : j = k
    · subst hj
      rw [Function.update_self] at ho
      exact .inr (.inl ⟨rfl, ho⟩)
    · rw [Function.update_of_ne hj] at ho
      exact .inr (.inr ⟨ho, fun heq => hj (Owner.thread.inj heq), nofun⟩)
  | others =>
    rw [Sys.Owns, hothers] at ho
    exact .inr (.inr ⟨ho, nofun, nofun⟩)

theorem Inv.quiet (h : Inv s) (hpc : s'.pc = Function.update s.pc k p)
    (hcache : Alike s.cache s'.cache)
    (hmarked : ∀ j job, j ≠ k → (s.pc j).job = some job → s.Spills job →
      s'.cache.blockAt job.si job.bi = some (.spilling job.frame job.sector))
    (hdisk : s'.disk = s.disk) (hothers : s'.others = s.others)
    (hframes : s'.frames.WF s'.mem)
    (hused : ∀ f, s.frames.Used s.mem f → s'.frames.Used s'.mem f ∧ s'.mem f = s.mem f)
    (hjob : ∀ job, p.job = some job → s.cache.spillNext ≤ job.sector)
    (hfilling : (s.pc k).filling = none) (hnone : p.filling = none) (hframe : p.frame = none)
    (hvalid : Moves s s' k p → p.Valid s') : Inv s' := by
  have hm : Moves s s' k p := by
    refine ⟨hpc, hcache.next, fun x => .inl (by rw [hdisk]), fun j f _ hf => ?_,
      fun job hj => .inr (hjob job hj), fun f hf => ?_, hmarked, fun j i n f _ _ hb => ?_⟩
    · exact (hused f (h.owned.used (.thread j) f hf)).2
    · rw [hnone] at hf
      cases hf
    · exact (hcache.holds i n f).mpr hb
  refine h.move hm hcache.numbered hcache.counted hframes ?_ (fun i n f hb hf => ?_)
    (fun i n sector hb => ?_) (hvalid hm)
  · refine h.owned.mono (fun o f ho => ?_) fun f hf => (hused f hf).1
    rcases owns_cases hpc hothers ho with ⟨i, n, rfl, hb⟩ | ⟨-, hp⟩ | ⟨hold, -⟩
    · exact (hcache.holds i n f).mp hb
    · rw [hframe] at hp
      cases hp
    · exact hold
  · have hold := (hcache.holds i n f).mp hb
    exact h.contents_of hpc (.inl hfilling) hold (hused f (h.owned.used (.block i n) f hold)).2 hf
  · exact hm.stored (h.stored i n sector (hcache.stored i n sector hb))

/-! ## The cache under the lock -/

section

variable {c c' : Cache} {job : Job} {now : ℕ} {g : Session → Session} {old b : Block} {i : ℕ}

theorem Alike.of_blockAt (hnumbered : c'.Numbered) (hcounted : c'.residentBlocks = c'.heldBlocks)
    (hnext : c.spillNext ≤ c'.spillNext) (hblocks : ∀ k i, c'.blockAt k i = c.blockAt k i) :
    Alike c c' := by
  refine ⟨hnumbered, hcounted, hnext, fun k i f => ?_, fun k i sector hb => ?_⟩
  · rw [Cache.Holds, Cache.Holds, hblocks]
  · rw [← hblocks, hb]

/-- A block changes and keeps its frame. -/
theorem Alike.set (hn : c.Numbered) (hc : c.residentBlocks = c.heldBlocks)
    (hold : c.blockAt k i = some old) (hg : ∀ x, (g x).blocks = x.blocks.set i b)
    (hid : ∀ x, (g x).id = x.id) {f : ℕ} (hf : old.frame = some f) (hb : b.frame = some f) :
    Alike c (c.modify k g) := by
  refine ⟨hn.modify hid, ?_, le_rfl, fun k' i' f' => ?_, fun k' i' sector h => ?_⟩
  · have hheld := Cache.heldBlocks_set hg hold
    rw [hf, hb] at hheld
    exact hc.trans (Nat.add_right_cancel hheld).symm
  · rw [Cache.Holds, Cache.blockAt_set hg hold, Cache.Holds]
    split_ifs with hki
    · obtain ⟨rfl, rfl⟩ := hki
      rw [hold]
      constructor
      · rintro ⟨x, hx, hxf⟩
        cases hx
        exact ⟨old, rfl, by rw [hf, ← hb, hxf]⟩
      · rintro ⟨x, hx, hxf⟩
        cases hx
        exact ⟨b, rfl, by rw [hb, ← hf, hxf]⟩
    · exact .rfl
  · rw [Cache.blockAt_set hg hold] at h
    split_ifs at h with hki
    · cases h
      cases hb
    · exact h

/-- `read` looks at a block and leaves the blocks as they are. -/
theorem look_alike (hn : c.Numbered) (hc : c.residentBlocks = c.heldBlocks) (id index now : ℕ) :
    Alike c (c.look id index now).2 ∧
      (∀ k i, (c.look id index now).2.blockAt k i = c.blockAt k i) ∧
      ∀ b, (c.look id index now).1 = .ok b → c.blockAt (c.find id) index = some b := by
  unfold Cache.look
  cases hx : c.sessions[c.find id]? with
  | none => exact ⟨.of_blockAt hn hc le_rfl fun _ _ => rfl, fun _ _ => rfl, nofun⟩
  | some x =>
    have hblocks := Cache.blockAt_modify (c := c) (k := c.find id)
      (g := fun x => { x with lastTick := now }) fun _ => rfl
    refine ⟨.of_blockAt (hn.modify fun _ => rfl) ?_ le_rfl hblocks, hblocks, fun b hb => ?_⟩
    · exact hc.trans (Cache.heldBlocks_modify (c := c) (k := c.find id)
        (g := fun x => { x with lastTick := now }) fun _ => rfl).symm
    · rw [Cache.blockAt, hx, Option.bind_some]
      dsimp only at hb
      cases hi : x.blocks[index]? with
      | none =>
        rw [hi] at hb
        cases hb
      | some y =>
        rw [hi] at hb
        cases hb
        rfl

/-- A block that goes to flash loses its frame. -/
theorem holds_lost {K n : ℕ} (hblocks : ∀ k i, c'.blockAt k i =
    if k = K ∧ i = n then some (.spilled sector) else c.blockAt k i) {k i f : ℕ} :
    c'.Holds k i f ↔ c.Holds k i f ∧ ¬(k = K ∧ i = n) := by
  rw [Cache.Holds, hblocks]
  split_ifs with hki
  · refine iff_of_false ?_ fun h => h.2 hki
    rintro ⟨x, hx, hxf⟩
    cases hx
    cases hxf
  · exact ⟨fun h => ⟨h, hki⟩, fun h => h.1⟩

/-- A block that had no frame gets one. -/
theorem holds_gained {K n f : ℕ} (hblocks : ∀ k i, c'.blockAt k i =
    if k = K ∧ i = n then some (.resident f now) else c.blockAt k i)
    (hnone : ∀ g, ¬c.Holds K n g) {k i g : ℕ} :
    c'.Holds k i g ↔ c.Holds k i g ∨ k = K ∧ i = n ∧ g = f := by
  by_cases hki : k = K ∧ i = n
  · obtain ⟨rfl, rfl⟩ := hki
    rw [Cache.Holds, hblocks, if_pos ⟨rfl, rfl⟩]
    constructor
    · rintro ⟨x, hx, hxf⟩
      cases hx
      cases hxf
      exact .inr ⟨rfl, rfl, rfl⟩
    · rintro (hb | ⟨-, -, rfl⟩)
      · exact absurd hb (hnone g)
      · exact ⟨_, rfl, rfl⟩
  · rw [Cache.Holds, hblocks, if_neg hki]
    exact ⟨.inl, fun hb => hb.resolve_right fun hin => hki ⟨hin.1, hin.2.1⟩⟩

/-- A block that is marked for a spill is not the one that changes. -/
theorem marked_kept {K n : ℕ} {b : Option Block} (hblocks : ∀ k i, c'.blockAt k i =
    if k = K ∧ i = n then b else c.blockAt k i)
    (hold : ∀ frame sector, c.blockAt K n ≠ some (.spilling frame sector)) {job : Job}
    (hmarked : c.blockAt job.si job.bi = some (.spilling job.frame job.sector)) :
    c'.blockAt job.si job.bi = some (.spilling job.frame job.sector) := by
  rw [hblocks, if_neg]
  · exact hmarked
  · rintro ⟨hsi, hbi⟩
    rw [hsi, hbi] at hmarked
    exact hold _ _ hmarked

/-- No block goes to flash with the block that changes. -/
theorem stored_kept {K n f k i : ℕ} (hblocks : ∀ k i, c'.blockAt k i =
    if k = K ∧ i = n then some (.resident f now) else c.blockAt k i)
    (hb : c'.blockAt k i = some (.spilled sector)) : c.blockAt k i = some (.spilled sector) := by
  rw [hblocks] at hb
  split_ifs at hb with hki
  · cases hb
  · exact hb

end

/-! ## Kinds of steps -/

/-- Thread `k` goes to `p`, and the allocator has found nothing. -/
theorem Inv.goto (h : Inv s) (frames : Frames) {cache : Cache} (hcache : Alike s.cache cache)
    (hmarked : ∀ j job, j ≠ k → (s.pc j).job = some job → s.Spills job →
      cache.blockAt job.si job.bi = some (.spilling job.frame job.sector))
    (hframes : frames.WF s.mem ∧ ∀ f, s.frames.Used s.mem f → frames.Used s.mem f)
    (hfilling : (s.pc k).filling = none) (hjob : p.job = none) (hnone : p.filling = none)
    (hframe : p.frame = none)
    (hvalid : Moves s { s.goto k p with cache := cache, frames := frames } k p →
      p.Valid { s.goto k p with cache := cache, frames := frames }) :
    Inv { s.goto k p with cache := cache, frames := frames } := by
  refine h.quiet rfl hcache hmarked rfl rfl hframes.1 (fun f hf => ⟨hframes.2 f hf, rfl⟩)
    (fun job hj => ?_) hfilling hnone hframe hvalid
  rw [hjob] at hj
  cases hj

theorem Inv.same (h : Inv s) : s.frames.WF s.mem ∧ ∀ f, s.frames.Used s.mem f → s.frames.Used s.mem f :=
  ⟨h.frames, fun _ hf => hf⟩

/-- A thread frees its frame and returns. -/
theorem Inv.freed (h : Inv s) {f : ℕ} {reply : Reply} (hframe : (s.pc k).frame = some f)
    (hnone : (s.pc k).filling = none) (hreply : reply.Valid) :
    Inv ((s.freeFrame f).goto k (.returned reply)) := by
  obtain ⟨hwf, -, hkeep, hmem⟩ := h.frames.free (h.owned.used (.thread k) f hframe) rfl
  -- the frame has no other owner
  have hne : ∀ o g, s.Owns o g → o ≠ .thread k → g ≠ f := by
    rintro o g ho hne rfl
    exact hne (h.owned.apart o (.thread k) _ ho hframe)
  have hm : Moves s ((s.freeFrame f).goto k (.returned reply)) k (.returned reply) :=
    ⟨rfl, le_rfl, fun x => .inl rfl,
      fun j g hj hg => hmem g (hne (.thread j) g hg fun heq => hj (Owner.thread.inj heq)),
      nofun, nofun, fun j job _ _ hs => hs.marked, fun _ _ _ _ _ _ hb => hb⟩
  refine h.move hm h.numbered h.counted hwf (h.owned.release (o := .thread k) hframe (fun o g ho => ?_)
    hkeep) (fun i n g hb hf => ?_) (fun i n sector hb => hm.stored (h.stored i n sector hb)) hreply
  · rcases owns_cases hm.pc rfl ho with ⟨i, n, rfl, hb⟩ | ⟨-, hp⟩ | ⟨hold, hother, -⟩
    · exact ⟨hb, nofun⟩
    · cases hp
    · exact ⟨hold, fun heq => hother heq.1⟩
  · exact h.contents_of hm.pc (.inl hnone) hb (hmem g (hne (.block i n) g hb nofun)) hf

/-- A write to a frame by its owner. -/
theorem Inv.written (h : Inv s) {o : Owner} {f : ℕ} (ho : s.Owns o f) {page : Page}
    (hthread : ∀ j, o = .thread j → j = k) (hjob : p.job = (s.pc k).job)
    (hnone : p.filling = none) (hfilling : ∀ g, (s.pc k).filling = some g → g = f)
    (hframe : p.frame = none ∨ p.frame = (s.pc k).frame)
    (hcontents : ∀ i n, o = .block i n → page = filled (i + 1) n)
    (hvalid : Moves s { s.goto k p with mem := Function.update s.mem f page } k p →
      p.Valid { s.goto k p with mem := Function.update s.mem f page }) :
    Inv { s.goto k p with mem := Function.update s.mem f page } := by
  obtain ⟨hwf, hkeep⟩ := h.frames.write (h.owned.used o f ho) page
  -- the frame has no other owner
  have hmem : ∀ o' g, s.Owns o' g → o' ≠ o → Function.update s.mem f page g = s.mem g := by
    intro o' g ho' hne
    refine Function.update_of_ne ?_ _ _
    rintro rfl
    exact hne (h.owned.apart o' o _ ho' ho)
  have hm : Moves s { s.goto k p with mem := Function.update s.mem f page } k p := by
    refine ⟨rfl, le_rfl, fun x => .inl rfl, fun j g hj hg => ?_, fun job hj => .inl (hjob ▸ hj),
      fun g hg => ?_, fun j job _ _ hs => hs.marked, fun _ _ _ _ _ _ hb => hb⟩
    · exact hmem (.thread j) g hg fun heq => hj (hthread j heq.symm)
    · rw [hnone] at hg
      cases hg
  refine h.move hm h.numbered h.counted hwf (h.owned.mono (fun o' g ho' => ?_) hkeep)
    (fun i n g hb hf => ?_) (fun i n sector hb => hm.stored (h.stored i n sector hb)) (hvalid hm)
  · rcases owns_cases hm.pc rfl ho' with ⟨i, n, rfl, hb⟩ | ⟨rfl, hp⟩ | ⟨hold, -⟩
    · exact hb
    · rcases hframe with hnone | hsame
      · rw [hnone] at hp
        cases hp
      · exact hsame.symm.trans hp
    · exact hold
  · by_cases hi : Owner.block i n = o
    · subst hi
      have hgf : g = f := by
        obtain ⟨x, hx, hxg⟩ : s.cache.Holds i n g := hb
        obtain ⟨y, hy, hyf⟩ := ho
        rw [hx] at hy
        cases hy
        exact Option.some.inj (hxg.symm.trans hyf)
      rw [hgf]
      exact (Function.update_self f page s.mem).trans (hcontents i n rfl)
    · refine (hmem (.block i n) g hb hi).trans (h.contents i n g hb ?_)
      rintro ⟨j, hj⟩
      by_cases hjk : j = k
      · subst hjk
        rw [hfilling g hj] at hb
        exact hi (h.owned.apart _ _ _ hb ho)
      · exact hf ⟨j, by rw [hm.pc, Function.update_of_ne hjk, hj]⟩

/-- The rest of the kernel does something, and leaves alone the frames of the cache. -/
theorem Inv.rest (h : Inv s) (hpc : s'.pc = s.pc) (hnumbered : s'.cache.Numbered)
    (hcounted : s'.cache.residentBlocks = s'.cache.heldBlocks)
    (hnext : s.cache.spillNext ≤ s'.cache.spillNext)
    (hblocks : ∀ k i, s'.cache.blockAt k i = s.cache.blockAt k i) (hdisk : s'.disk = s.disk)
    (hframes : s'.frames.WF s'.mem) (howned : Holdings (s'.frames.Used s'.mem) s'.Owns)
    (hmem : ∀ o f, o ≠ .others → s.Owns o f → s'.mem f = s.mem f) : Inv s' := by
  have hholds : ∀ i n f, s'.cache.Holds i n f ↔ s.cache.Holds i n f := by
    intro i n f
    rw [Cache.Holds, Cache.Holds, hblocks]
  have hm : ∀ k, Moves s s' k (s.pc k) := fun k =>
    ⟨by rw [hpc, Function.update_eq_self], hnext, fun x => .inl (by rw [hdisk]),
      fun j f _ hf => hmem (.thread j) f nofun hf, fun _ hj => .inl hj, fun _ hf => .inl hf,
      fun j job _ _ hs => (hblocks _ _).trans hs.marked,
      fun j i n f _ _ hb => (hholds i n f).mpr hb⟩
  refine ⟨hnumbered, hcounted, hframes, howned, fun i n f hb hf => ?_, fun i n sector hb => ?_,
    (hm 0).apart h, fun j => ?_⟩
  · have hold := (hholds i n f).mp hb
    rw [hmem (.block i n) f nofun hold]
    refine h.contents i n f hold fun hfill => hf ?_
    rw [Sys.Filling, hpc]
    exact hfill
  · rw [hblocks] at hb
    exact (hm 0).stored (h.stored i n sector hb)
  · rw [hpc]
    exact (hm (j + 1)).valid h (Nat.ne_of_lt (Nat.lt_succ_self j))

end

end JungeyOs.Kv
