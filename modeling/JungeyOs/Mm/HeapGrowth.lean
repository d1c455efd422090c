import JungeyOs.Mm.HeapCheck
import JungeyOs.Mm.Pool
import Mathlib.Algebra.Order.BigOperators.Group.List

/-!
# The kernel heap as it grows

Model of `init` (`kernel/src/mm/heap.rs`, lines 159–164), which donates frames to the heap, in any
order with the calls of the heap's users and with what others do with the frame allocator. The frames
of the heap are never given back, so all that the two sides see of each other is `BUMP`; each side
keeps its own part of the memory.

`insert` joins a block with the blocks that it touches, whichever regions they are from, while `check`
asks for one region that holds the block.

Results:
* `inv_step`: the regions lie one behind the other, and hold what is free and what is handed out.
* `check_exact`: in every history `check` reports no error exactly when no free memory reaches from one
  region into the next and there are not too many blocks; and it reports every list that is not well
  formed.
* `neighbours_reported`: two regions that were donated one after the other are reported.
-/

namespace JungeyOs.Mm

open Blocks (Covers Within Bridged)

/-- `phys_to_virt` (`mm/mod.rs`, lines 25–27), which covers RAM. -/
def physToVirt (pa : ℕ) : ℕ := pa + 0xFFFF000000000000

/-- The heap and the frame allocator with their users. -/
structure Growth where
  pool : Pool
  use : HeapUse

namespace Growth

/-- `init` of the heap (lines 160–163). -/
def init (s : Growth) (pages : ℕ) : Option Growth :=
  let pool := { s.pool with frames := (s.pool.frames.allocContiguous pages).2 }
  match (s.pool.frames.allocContiguous pages).1 with
  | none => some { s with pool := pool }
  | some phys =>
    (s.use.heap.addRegion (physToVirt phys) (pages * PAGE_SIZE)).map fun heap =>
      { pool := pool, use := { s.use with heap := heap } }

inductive Act
  | init (pages : ℕ)
  | use (a : HeapUse.Act)
  /-- somebody else uses the frame allocator -/
  | pool (a : Pool.Act)

/-- `init` is called for at most `MAX_REGIONS` regions, and the bytes of the pages can be counted. -/
def step (s : Growth) : Act → Option Growth
  | .init pages =>
    if s.use.heap.regions.length < MAX_REGIONS ∧ pages * PAGE_SIZE < 2 ^ 64 then s.init pages else none
  | .use a => (s.use.step a).map fun use => { s with use := use }
  | .pool a => (s.pool.step a).map fun pool => { s with pool := pool }

/-- After `frames::init`, with a heap that has no region. RAM ends before the end of the linear map. -/
def Starts (s : Growth) : Prop :=
  (∃ regions ranges, (∀ ram ∈ biggest regions, ram.base + ram.size < 2 ^ 48) ∧
    Pool.Starts regions ranges s.pool) ∧ (∃ mem, s.use.heap = Heap.new mem) ∧ s.use.live = []

end Growth

/-- No free memory reaches from one region into the next one, and `check` can count the free blocks. -/
structure Heap.Clean (h : Heap) : Prop where
  apart : ¬Bridged h.regions h.freeList
  few : h.freeList.length ≤ MAX_BLOCKS

/-! ## What is free and what is handed out -/

namespace HeapUse

/-- What is free and what is handed out is in the regions, and was donated. -/
structure Bounded (s : HeapUse) (l : List (ℕ × ℕ)) : Prop where
  sound : Sound space s l
  allocated : s.heap.allocated = (s.live.map fun a => a.2.need).sum
  bytes : Blocks.bytes l + s.heap.allocated ≤ s.heap.total
  covered : ∀ x, Covers l x ∨ Held s.live x → ∃ r ∈ s.heap.regions, r.1 ≤ x ∧ x < r.2

section

variable {s s' : HeapUse} {l : List (ℕ × ℕ)} {ptr : ℕ} {layout : Layout} {a : Act}

theorem Bounded.alloc (h : Bounded s l) (hs : step s (.alloc layout) = some s') :
    (∃ l', Bounded s' l') ∧ s'.heap.regions = s.heap.regions := by
  obtain ⟨htotal, hregions, ⟨-, rfl⟩ | ⟨b, l', -, hsound', hlive, hallocated, htook, hleaves⟩⟩ :=
    h.sound.alloc_effect hs
  · exact ⟨⟨l, h⟩, rfl⟩
  · have hbytes := hleaves.bytes
    have hsum := h.bytes
    refine ⟨⟨l', hsound', ?_, ?_, fun x hx => ?_⟩, hregions⟩
    · rw [hlive, hallocated, h.allocated, List.map_cons, List.sum_cons, Nat.add_comm]
    · split_ifs at hbytes <;> omega
    · rw [hregions]
      refine h.covered x ?_
      rw [hlive, held_cons] at hx
      rcases hx with hfree | htaken | hheld
      · exact .inl (htook.left x hfree).1
      · exact .inl (htook.taken x htaken.1 htaken.2)
      · exact .inr hheld

theorem Bounded.dealloc (h : Bounded s l) (hs : step s (.dealloc ptr layout) = some s') :
    (∃ l', Bounded s' l') ∧ s'.heap.regions = s.heap.regions := by
  obtain ⟨hsound', htotal, hregions, hallocated', hperm⟩ := h.sound.dealloc_effect hs
  have hsum := sum_need_perm hperm
  have hallocated := h.allocated
  have hbytes := h.bytes
  refine ⟨⟨_, hsound', ?_, ?_, fun x hx => ?_⟩, hregions⟩
  · omega
  · rw [Blocks.bytes_insert]
    dsimp only
    omega
  · rw [hregions]
    refine h.covered x ?_
    rw [Blocks.covers_insert] at hx
    rw [held_perm hperm, held_cons]
    tauto

theorem Bounded.store {addr v : ℕ} (h : Bounded s l) (hs : step s (.store addr v) = some s') :
    (∃ l', Bounded s' l') ∧ s'.heap.regions = s.heap.regions := by
  have hsound' := h.sound.store hs
  rw [step] at hs
  split_ifs at hs
  cases hs
  exact ⟨⟨l, hsound', h.allocated, h.bytes, h.covered⟩, rfl⟩

theorem bounded_step (h : Bounded s l) (hs : step s a = some s') :
    (∃ l', Bounded s' l') ∧ s'.heap.regions = s.heap.regions := by
  cases a with
  | alloc layout => exact h.alloc hs
  | dealloc ptr layout => exact h.dealloc hs
  | store addr v => exact h.store hs

/-- A region is donated that lies behind the others. -/
theorem Bounded.grow (h : Bounded s l) {start size : ℕ} (hpage : PAGE_SIZE ∣ start)
    (hlow : PAGE_SIZE ≤ start) (hfits : start + size ≤ 2 ^ 64) (hbig : BLOCK_SIZE ≤ size)
    (hroom : s.heap.regions.length < MAX_REGIONS) (hbehind : ∀ r ∈ s.heap.regions, r.2 ≤ start) :
    ∃ heap l', s.heap.addRegion start size = some heap ∧ Bounded { s with heap := heap } l' ∧
      heap.regions = s.heap.regions ++ [(start, start + size)] := by
  have hfree : ∀ x, start ≤ x → x < start + size → ¬Covers l x ∧ ¬Held s.live x := by
    intro x hx _
    rw [← not_or]
    intro hused
    obtain ⟨r, hr, -, hto⟩ := h.covered x hused
    have := hbehind r hr
    omega
  obtain ⟨heap, hadd, hsound, htotal, hallocated, hregions⟩ :=
    h.sound.addRegion hpage hlow hfits hbig hfree
  rw [if_pos hroom] at hregions
  have hbytes := h.bytes
  refine ⟨heap, _, hadd, ⟨hsound, hallocated.trans h.allocated, ?_, fun x hx => ?_⟩, hregions⟩
  · rw [Blocks.bytes_insert, htotal, hallocated]
    dsimp only
    omega
  · dsimp only at hx ⊢
    rw [hregions]
    rw [Blocks.covers_insert, or_assoc] at hx
    rcases hx with hnew | hold
    · exact ⟨_, List.mem_append_right _ List.mem_cons_self, hnew⟩
    · obtain ⟨r, hr, hin⟩ := h.covered x hold
      exact ⟨r, List.mem_append_left _ hr, hin⟩

end

end HeapUse

/-! ## Every history -/

/-- Others only move `BUMP` up. -/
theorem Pool.bump_step {s s' : Pool} {a : Pool.Act} (hdvd : PAGE_SIZE ∣ s.frames.bump)
    (hs : s.step a = some s') : s.frames.bump ≤ s'.frames.bump ∧ PAGE_SIZE ∣ s'.frames.bump ∧
      s'.frames.limit = s.frames.limit := by
  cases a with
  | alloc =>
    rw [Pool.step] at hs
    rcases hr : s.frames.alloc s.mem with ⟨r, frames⟩
    rw [hr] at hs
    cases hs
    cases r with
    | none =>
      obtain ⟨hframes, hle, hdvd'⟩ := Frames.alloc_none hdvd hr
      exact ⟨hle, hdvd', by rw [hframes]⟩
    | some f =>
      rcases Frames.alloc_some hdvd hr with ⟨-, -, hframes⟩ | ⟨-, hfound, hframes⟩
      · subst hframes
        exact ⟨le_rfl, hdvd, rfl⟩
      · subst hframes
        exact ⟨hfound.from_bump.trans (Nat.le_add_right ..), Nat.dvd_add hfound.aligned (Nat.dvd_refl _),
          rfl⟩
  | allocContiguous count =>
    rw [Pool.step] at hs
    rcases hr : s.frames.allocContiguous count with ⟨r, frames⟩
    rw [hr] at hs
    cases hs
    cases r with
    | none =>
      obtain ⟨hframes, hle, hdvd'⟩ := Frames.allocContiguous_none hdvd hr
      exact ⟨hle, hdvd', by rw [hframes]⟩
    | some f =>
      obtain ⟨hfound, hframes⟩ := Frames.allocContiguous_some hdvd hr
      subst hframes
      exact ⟨hfound.from_bump.trans (Nat.le_add_right ..),
        Nat.dvd_add hfound.aligned (Nat.dvd_mul_left ..), rfl⟩
  | free frame =>
    rw [Pool.step] at hs
    split_ifs at hs
    cases hs
    exact ⟨le_rfl, hdvd, rfl⟩
  | write frame page =>
    rw [Pool.step] at hs
    split_ifs at hs
    cases hs
    exact ⟨le_rfl, hdvd, rfl⟩

namespace Growth

/-- The regions lie one behind the other, below `BUMP`, and hold what is free and what is handed out. -/
structure Inv (s : Growth) (l : List (ℕ × ℕ)) : Prop where
  bounded : HeapUse.Bounded s.use l
  behind : s.use.heap.regions.Pairwise fun q r => q.2 ≤ r.1
  proper : ∀ r ∈ s.use.heap.regions, r.1 < r.2
  below : ∀ r ∈ s.use.heap.regions, r.2 ≤ physToVirt s.pool.frames.bump ∧ r.2 < 2 ^ 64
  aligned : PAGE_SIZE ∣ s.pool.frames.bump
  limit : s.pool.frames.limit < 2 ^ 48

section

variable {s s' : Growth} {l : List (ℕ × ℕ)} {a : Act} {pages : ℕ}

theorem inv_start (h : s.Starts) : s.Inv [] := by
  obtain ⟨⟨regions, ranges, hram, hpool⟩, ⟨mem, hheap⟩, hlive⟩ := h
  have hframes : s.pool.frames = (Frames.init regions ranges).1 := congrArg Prod.fst hpool.1
  have hsound : HeapUse.Sound space s.use [] :=
    HeapUse.sound_idle hlive (hheap ▸ HeapUse.lists_new mem) (HeapUse.good_nil _ _)
  have hregions : s.use.heap.regions = [] := by rw [hheap]; rfl
  refine ⟨⟨hsound, ?_, ?_, fun x hx => ?_⟩, ?_, ?_, ?_, ?_, ?_⟩
  · rw [hheap, hlive]
    rfl
  · rw [hheap]
    exact le_rfl
  · simp [hlive, Covers, HeapUse.Held] at hx
  · rw [hregions]
    exact List.Pairwise.nil
  · simp [hregions]
  · simp [hregions]
  · rcases Pool.init_cases regions ranges with h | ⟨r, -, h⟩ <;> rw [hframes, h]
    · exact dvd_zero _
    · exact dvd_pageAlignUp _
  · rcases Pool.init_cases regions ranges with h | ⟨r, hr, h⟩ <;> rw [hframes, h]
    · exact Nat.two_pow_pos 48
    · exact (Frames.pageAlignDown_le _).trans_lt (hram r hr)

/-- What is not the heap's may change as long as `BUMP` only goes up. -/
theorem Inv.others (h : s.Inv l) {pool : Pool} (hle : s.pool.frames.bump ≤ pool.frames.bump)
    (hdvd : PAGE_SIZE ∣ pool.frames.bump) (hlimit : pool.frames.limit = s.pool.frames.limit) :
    Inv { s with pool := pool } l := by
  refine ⟨h.bounded, h.behind, h.proper, fun r hr => ⟨(h.below r hr).1.trans ?_, (h.below r hr).2⟩, hdvd,
    hlimit ▸ h.limit⟩
  exact Nat.add_le_add_right hle _

/-- The frames of a region are those from `BUMP` on. -/
theorem Inv.init (h : s.Inv l) (hroom : s.use.heap.regions.length < MAX_REGIONS)
    (hs : s.init pages = some s') : ∃ l', s'.Inv l' := by
  rw [Growth.init] at hs
  rcases hr : s.pool.frames.allocContiguous pages with ⟨r, frames⟩
  rw [hr] at hs
  cases r with
  | none =>
    cases hs
    obtain ⟨hframes, hle, hdvd⟩ := Frames.allocContiguous_none h.aligned hr
    exact ⟨l, h.others hle hdvd (by dsimp only; rw [hframes])⟩
  | some phys =>
    dsimp only at hs
    obtain ⟨heap, hadd, rfl⟩ := Option.map_eq_some_iff.mp hs
    obtain ⟨hfound, hframes⟩ := Frames.allocContiguous_some h.aligned hr
    have hbump := hfound.from_bump
    have hfits := hfound.fits
    have hlimit := h.limit
    have hpages : pages ≠ 0 := by
      rintro rfl
      cases hr
    have hsize : PAGE_SIZE ≤ pages * PAGE_SIZE :=
      Nat.le_mul_of_pos_left _ (Nat.pos_of_ne_zero hpages)
    have hpage : PAGE_SIZE ∣ physToVirt phys := Nat.dvd_add hfound.aligned (by decide)
    have hlow : PAGE_SIZE ≤ physToVirt phys :=
      Nat.le_of_dvd (Nat.add_pos_right _ (by decide)) hpage
    have hend : physToVirt phys + pages * PAGE_SIZE < 2 ^ 64 := by
      unfold physToVirt
      omega
    have hbehind : ∀ r ∈ s.use.heap.regions, r.2 ≤ physToVirt phys := fun r hr =>
      (h.below r hr).1.trans (Nat.add_le_add_right hbump _)
    obtain ⟨heap', l', hadd', hbounded, hregions⟩ := h.bounded.grow hpage hlow hend.le
      (le_trans (by decide) hsize) hroom hbehind
    rw [hadd'] at hadd
    cases hadd
    refine ⟨l', hbounded, ?_, ?_, ?_, ?_, ?_⟩ <;> dsimp only
    · rw [hregions, List.pairwise_append]
      refine ⟨h.behind, List.pairwise_singleton _ _, fun r hr q hq => ?_⟩
      rw [List.mem_singleton.mp hq]
      exact hbehind r hr
    · rw [hregions, List.forall_mem_append, List.forall_mem_singleton]
      refine ⟨h.proper, Nat.lt_add_of_pos_right ?_⟩
      exact PAGE_SIZE_pos.trans_le hsize
    · rw [hregions, List.forall_mem_append, List.forall_mem_singleton, hframes]
      refine ⟨fun r hr => ⟨(h.below r hr).1.trans (Nat.add_le_add_right ?_ _), (h.below r hr).2⟩, ?_, hend⟩
      · exact hbump.trans (Nat.le_add_right ..)
      · show physToVirt phys + pages * PAGE_SIZE ≤ physToVirt (phys + pages * PAGE_SIZE)
        unfold physToVirt
        omega
    · rw [hframes]
      exact Nat.dvd_add hfound.aligned (Nat.dvd_mul_left ..)
    · rw [hframes]
      exact hlimit

theorem inv_step (h : s.Inv l) (hs : s.step a = some s') : ∃ l', s'.Inv l' := by
  cases a with
  | init pages =>
    rw [step] at hs
    split_ifs at hs with hok
    exact h.init hok.1 hs
  | use a =>
    obtain ⟨use, huse, rfl⟩ := Option.map_eq_some_iff.mp hs
    obtain ⟨⟨l', hbounded⟩, hregions⟩ := HeapUse.bounded_step h.bounded huse
    refine ⟨l', hbounded, ?_, ?_, ?_, h.aligned, h.limit⟩ <;> dsimp only <;> rw [hregions]
    · exact h.behind
    · exact h.proper
    · exact h.below
  | pool a =>
    obtain ⟨pool, hpool, rfl⟩ := Option.map_eq_some_iff.mp hs
    obtain ⟨hle, hdvd, hlimit⟩ := Pool.bump_step h.aligned hpool
    exact ⟨l, h.others hle hdvd hlimit⟩

theorem inv_reachable (h : Run.Reachable step Run.always Starts s) : ∃ l, s.Inv l :=
  h.invariant (fun s => ∃ l, s.Inv l) (fun _ hs => ⟨[], inv_start hs⟩)
    fun _ _ _ ⟨_, hi⟩ _ hs => inv_step hi hs

/-- What `check` says of the list that the calls leave behind. -/
theorem Inv.check_iff (h : s.Inv l) : s.use.heap.check.error = none ↔ s.use.heap.Clean := by
  have hgood := h.bounded.sound.good
  have hpos : ∀ b ∈ l, 0 < b.2 := fun b hb => lt_of_lt_of_le (by decide) (hgood.big b hb)
  have hlist := h.bounded.sound.freeList_eq
  have hblocks : ∀ b ∈ l, 0 < b.1 ∧ MIN_ALIGN ∣ b.1 ∧ BLOCK_SIZE ≤ b.2 ∧
      b.2 ≤ s.use.heap.total ∧ b.1 + b.2 < 2 ^ 64 := by
    intro b hb
    have hbpos := hpos b hb
    refine ⟨space.pos.trans_le (hgood.from_lo b hb), hgood.aligned b hb, hgood.big b hb, ?_, ?_⟩
    · have hle : b.2 ≤ Blocks.bytes l := List.single_le_sum (by simp) _ (List.mem_map_of_mem hb)
      have := h.bounded.bytes
      omega
    · -- the last byte is in a region, which ends before the end of the address space
      obtain ⟨r, hr, -, hto⟩ := h.bounded.covered (b.1 + b.2 - 1) (.inl ⟨b, hb, by omega, by omega⟩)
      have := (h.below r hr).2
      omega
  rw [Heap.check_iff h.bounded.sound.lists hgood.apart (hgood.length_lt space.pos space.fits) hblocks,
    hgood.apart.within_iff hpos h.behind h.proper fun x hx => h.bounded.covered x (.inl hx), ← hlist]
  exact ⟨fun hc => ⟨hc.1, hc.2⟩, fun hc => ⟨hc.apart, hc.few⟩⟩

end

/-- In every history of regions that are donated, allocations and frees, `check` reports no error exactly
when at no address where one region ends and another begins the bytes on both sides are free, and there
are at most a million free blocks. And it reports every list that is not well formed, unless a block of
a possible size runs past the end of the address space. -/
theorem check_exact {s : Growth} (h : Run.Reachable step Run.always Starts s) :
    (s.use.heap.check.error = none ↔ s.use.heap.Clean) ∧
      ∀ heap : Heap, (∀ b ∈ heap.freeList, b.2 ≤ heap.total → b.1 + b.2 < 2 ^ 64) →
        ¬heap.WellFormed → heap.check.error ≠ none := by
  obtain ⟨l, hl⟩ := inv_reachable h
  exact ⟨hl.check_iff, fun heap hwrap hbad hnone => hbad (Heap.wellFormed_of_check hwrap hnone)⟩

/-- Eight frames of RAM, and a heap without a region. -/
def board : Growth :=
  ⟨Pool.afterInit [Pool.eightFrames] [] fun _ => Vector.replicate _ 0, ⟨Heap.new fun _ => 0, []⟩⟩

theorem starts_board : board.Starts :=
  ⟨⟨[Pool.eightFrames], [], by decide, Pool.starts_afterInit ..⟩, ⟨_, rfl⟩, rfl⟩

/-- Two regions with a frame of somebody else in between and an allocation are no error; a block behind
the region is one. -/
theorem check_exact_apart : ∃ s, Run.exec step board [.init 1, .pool .alloc, .init 1,
      .use (.alloc ⟨24, 8, ⟨3, rfl⟩, by decide⟩)] = some s ∧
    s.use.heap.freeList = [(0xFFFF000040000018, 4072), (0xFFFF000040002000, 4096)] ∧
    s.use.heap.check.error = none ∧
    (Heap.check ⟨8192, 4096, 0, [(4096, 8192)], Function.update (fun _ => 0) 8192 16⟩).error ≠ none := by
  have hrun : (Run.exec step board [.init 1, .pool .alloc, .init 1,
      .use (.alloc ⟨24, 8, ⟨3, rfl⟩, by decide⟩)]).map
        (fun s => (s.use.heap.freeList, s.use.heap.regions)) =
      some ([(0xFFFF000040000018, 4072), (0xFFFF000040002000, 4096)],
        [(0xFFFF000040000000, 0xFFFF000040001000), (0xFFFF000040002000, 0xFFFF000040003000)]) := by
    decide
  obtain ⟨s, hs, hfields⟩ := Option.map_eq_some_iff.mp hrun
  obtain ⟨hlist, hregions⟩ := Prod.mk.inj hfields
  have hexact := check_exact (Run.reachable_of_exec starts_board hs)
  refine ⟨s, hs, hlist, hexact.1.mpr ⟨?_, ?_⟩, hexact.2 _ ?_ fun hwf => ?_⟩
  · rintro ⟨r, hr, q, hq, htouch, -⟩
    rw [hregions] at hr hq
    revert r q
    decide
  · rw [hlist]
    decide
  · decide
  · obtain ⟨r, hr, -, hto⟩ := hwf.within (8192, 16) (by decide)
    rw [List.mem_singleton] at hr
    subst hr
    revert hto
    decide

/-- Two regions one after the other: `insert` makes one block of them, and `check` reports it. -/
theorem neighbours_reported : ∃ s, Run.exec step board [.init 1, .init 1] = some s ∧
    s.use.heap.regions =
      [(0xFFFF000040000000, 0xFFFF000040001000), (0xFFFF000040001000, 0xFFFF000040002000)] ∧
    s.use.heap.freeList = [(0xFFFF000040000000, 8192)] ∧
    s.use.heap.check.error = some "block lies outside every donated region" := by
  have hrun : (Run.exec step board [.init 1, .init 1]).map
        (fun s => (s.use.heap.regions, s.use.heap.freeList, s.use.heap.check.error)) =
      some ([(0xFFFF000040000000, 0xFFFF000040001000), (0xFFFF000040001000, 0xFFFF000040002000)],
        [(0xFFFF000040000000, 8192)], some "block lies outside every donated region") := by
    decide
  obtain ⟨s, hs, hfields⟩ := Option.map_eq_some_iff.mp hrun
  simp only [Prod.mk.injEq] at hfields
  exact ⟨s, hs, hfields⟩

end Growth

end JungeyOs.Mm
