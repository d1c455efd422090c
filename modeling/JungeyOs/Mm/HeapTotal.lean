import JungeyOs.Mm.Heap

/-!
# What the kernel heap has, and what it finds

Over whole histories of a heap to which any number of regions were donated: whether every byte of them
is in a free block or in a live allocation, and whether an allocation finds the room that there is.
`alloc` puts back what is left of a block in front of an allocation and behind it, but not a tail that
is too small for a block; and it tries each block at its first aligned address only.

Results:
* `Heap.freeList_eq`: a walk over the free list finds its blocks.
* `HeapUse.filled_step`: what a step does to the bytes that are free.
* `HeapUse.bytes_conserved_iff`: in a run the free bytes and those that are handed out make up all that
  was donated exactly when no allocation leaves a tail that is too small for a block.
* `HeapUse.finds_room_iff`: when an allocation finds the room that a free block has.
-/

namespace JungeyOs.Mm

open Blocks (Covers)

/-! ## The free list -/

namespace Heap

/-- The blocks of the free list from `cur` on, as `check` walks them (lines 192–225). -/
def walk (h : Heap) : (fuel cur : ℕ) → List (ℕ × ℕ)
  | 0, _ => []
  | fuel + 1, cur => if cur = 0 then [] else (cur, h.mem cur) :: walk h fuel (h.mem (cur + 8))

def freeList (h : Heap) : List (ℕ × ℕ) := h.walk STEPS h.head

section

variable {h : Heap} {l : List (ℕ × ℕ)} {lo hi : ℕ}

theorem walk_eq {fuel : ℕ} : ∀ {l : List (ℕ × ℕ)} {p : ℕ}, Linked.Path h.link p (l.map Prod.fst) 0 →
    (∀ b ∈ l, 0 < b.1 ∧ h.mem b.1 = b.2) → l.length < fuel → h.walk fuel (h.link p) = l := by
  induction fuel with
  | zero => intro l p _ _ hlen; omega
  | succ fuel ih =>
    intro l p hpath hl hlen
    rw [walk]
    cases l with
    | nil =>
      have hlink : h.link p = 0 := hpath
      rw [if_pos hlink]
    | cons b l =>
      obtain ⟨hb, hrest⟩ := hpath
      obtain ⟨hpos, hsize⟩ := hl b List.mem_cons_self
      have hnext : h.mem (b.1 + 8) = h.link b.1 := (if_neg hpos.ne').symm
      rw [hb, if_neg hpos.ne', hnext, hsize,
        ih hrest (fun c hc => hl c (.tail _ hc)) (Nat.lt_of_succ_lt_succ hlen)]

/-- A walk finds the blocks of the free list. -/
theorem freeList_eq (hl : Lists h l) (hg : Good lo hi l) (hlo : 0 < lo) (hhi : hi ≤ 2 ^ 64) :
    h.freeList = l :=
  walk_eq (p := 0) hl.path (fun b hb => ⟨hlo.trans_le (hg.from_lo b hb), hl.sizes b hb⟩)
    (hg.length_lt hlo hhi)

/-! ## The regions -/

theorem regions_setLink (h : Heap) (p v : ℕ) : (h.setLink p v).regions = h.regions := by
  unfold setLink
  split_ifs <;> rfl

/-- `insert` leaves the regions alone. -/
theorem regions_insert {block size : ℕ} {h' : Heap} (hi : h.insert block size = some h') :
    h'.regions = h.regions := by
  obtain ⟨⟨prev, cur⟩, -, rfl⟩ := Option.map_eq_some_iff.mp hi
  have hlink := regions_setLink
    (((h.write block size).write (block + 8) 0).write (block + 8) cur) prev block
  dsimp only
  split_ifs <;> exact hlink

theorem regions_putBack {block size : ℕ} {h' : Heap} (hp : h.putBack block size = some h') :
    h'.regions = h.regions := by
  unfold putBack at hp
  split_ifs at hp
  · exact regions_insert hp
  · cases hp
    rfl

/-- `alloc` leaves the regions alone. -/
theorem regions_allocFrom {align size fuel : ℕ} : ∀ {prev cur p : ℕ} {h h' : Heap},
    allocFrom align size fuel prev cur h = some (p, h') → h'.regions = h.regions := by
  induction fuel with
  | zero => intro prev cur p h h' hs; cases hs
  | succ fuel ih =>
    intro prev cur p h h' hs
    rw [allocFrom] at hs
    dsimp only at hs
    split_ifs at hs
    · cases hs
      rfl
    · obtain ⟨h₂, hfront, hrest⟩ := Option.bind_eq_some_iff.mp hs
      obtain ⟨h₃, htail, heq⟩ := Option.map_eq_some_iff.mp hrest
      cases heq
      exact (regions_putBack htail).trans ((regions_putBack hfront).trans (regions_setLink ..))
    · exact ih hs

end

end Heap

/-! ## The claims -/

/-- All addresses that a region can be at. -/
def space : Donated := ⟨PAGE_SIZE, 2 ^ 64 - PAGE_SIZE, by decide, by decide, by decide⟩

/-- The regions that the heap has taken: it has no use for one that is smaller than a block
(line 50). -/
def regions (ds : List Donated) : List (ℕ × ℕ) :=
  (ds.map fun d => (d.start, d.size)).filter fun b => BLOCK_SIZE ≤ b.2

namespace HeapUse

/-- After `add_region` for each of the regions, which are apart from each other. -/
structure Grown (ds : List Donated) (s : HeapUse) : Prop where
  apart : ds.Pairwise fun c d => c.start + c.size ≤ d.start ∨ d.start + d.size ≤ c.start
  heap : ∃ mem, ds.foldlM (fun h d => h.addRegion d.start d.size) (Heap.new mem) = some s.heap
  live : s.live = []

/-- The free bytes and those that are handed out are all that was donated; and once everything has been
given back the free list covers all of it, with one block for each region where they do not touch. -/
structure Conserved (ds : List Donated) (s : HeapUse) : Prop where
  bytes : Blocks.bytes s.heap.freeList + s.heap.allocated = s.heap.total
  covers : s.live = [] → ∀ x, Covers s.heap.freeList x ↔ Covers (regions ds) x
  whole : s.live = [] → Blocks.Lone (regions ds) → s.heap.freeList.Perm (regions ds)

/-- An allocation leaves nothing behind itself in the block that it takes, or enough for a block. -/
def Fills (s : HeapUse) : Act → Prop
  | .alloc layout =>
    ∀ b, s.heap.freeList.find? (Heap.takes (max layout.align MIN_ALIGN) layout.need) = some b →
      Heap.tailOf (max layout.align MIN_ALIGN) layout.need b = 0 ∨
        BLOCK_SIZE ≤ Heap.tailOf (max layout.align MIN_ALIGN) layout.need b
  | _ => True

/-! ## The invariant -/

/-- The address is in a live allocation. -/
def Held (live : List (ℕ × Layout)) (x : ℕ) : Prop := ∃ a ∈ live, a.1 ≤ x ∧ x < a.1 + a.2.need

/-- Every byte that was donated is free or in a live allocation. -/
structure Filled (ds : List Donated) (s : HeapUse) (l : List (ℕ × ℕ)) : Prop where
  sound : Sound space s l
  allocated : s.heap.allocated = (s.live.map fun a => a.2.need).sum
  bytes : Blocks.bytes l + s.heap.allocated = s.heap.total
  covers : ∀ x, Covers (regions ds) x ↔ Covers l x ∨ Held s.live x

section

variable {ds : List Donated} {s s' : HeapUse} {l : List (ℕ × ℕ)} {ptr : ℕ} {layout : Layout} {a : Act}

theorem Sound.freeList_eq {d : Donated} (h : Sound d s l) : s.heap.freeList = l :=
  Heap.freeList_eq h.lists h.good d.pos d.fits

theorem Filled.conserved (h : Filled ds s l) : Conserved ds s := by
  have hcovers : s.live = [] → ∀ x, Covers s.heap.freeList x ↔ Covers (regions ds) x := by
    intro hlive x
    rw [h.sound.freeList_eq, h.covers, hlive]
    simp [Held]
  refine ⟨h.sound.freeList_eq.symm ▸ h.bytes, hcovers, fun hlive hlone => ?_⟩
  have hpos : ∀ b ∈ l, 0 < b.2 := fun b hb => lt_of_lt_of_le (by decide) (h.sound.good.big b hb)
  refine Blocks.Lone.perm ?_ hlone ?_ (fun b hb => ?_) (hcovers hlive)
  · exact h.sound.freeList_eq.symm ▸ h.sound.good.apart.lone
  · exact h.sound.freeList_eq.symm ▸ hpos
  · have hbig := (List.mem_filter.mp hb).2
    exact lt_of_lt_of_le (by decide) (of_decide_eq_true hbig)

/-! ## Steps -/

theorem held_cons {live : List (ℕ × Layout)} {x : ℕ} : Held ((ptr, layout) :: live) x ↔
    (ptr ≤ x ∧ x < ptr + layout.need) ∨ Held live x := by
  unfold Held
  rw [List.exists_mem_cons_iff]

/-- What an allocation does: nothing changes, or the first block that fits is taken. -/
theorem Sound.alloc_effect (h : Sound space s l) (hs : HeapUse.step s (.alloc layout) = some s') :
    s'.heap.total = s.heap.total ∧ s'.heap.regions = s.heap.regions ∧
    ((∀ b ∈ l, ¬Heap.takes (max layout.align MIN_ALIGN) layout.need b) ∧ s' = s ∨
      ∃ b l', l.find? (Heap.takes (max layout.align MIN_ALIGN) layout.need) = some b ∧
        Sound space s' l' ∧
        s'.live = (alignUp b.1 (max layout.align MIN_ALIGN), layout) :: s.live ∧
        s'.heap.allocated = s.heap.allocated + layout.need ∧
        Heap.Takes space.start (space.start + space.size) l l' (max layout.align MIN_ALIGN)
          layout.need (alignUp b.1 (max layout.align MIN_ALIGN)) ∧
        Heap.Leaves l l' (max layout.align MIN_ALIGN) layout.need b) := by
  obtain ⟨l', hsound'⟩ := h.alloc hs
  obtain ⟨p, h', halloc, htotal, hcase⟩ := h.alloc_returns layout
  have hregions : h'.regions = s.heap.regions := Heap.regions_allocFrom halloc
  rw [HeapUse.step, halloc] at hs
  cases hs
  refine ⟨htotal, hregions, ?_⟩
  rcases hcase with ⟨hnone, rfl, rfl⟩ | ⟨b, l₃, hfind, rfl, hallocated, hl₃, htook, hleaves⟩
  · exact .inl ⟨hnone, rfl⟩
  · have hppos : alignUp b.1 (max layout.align MIN_ALIGN) ≠ 0 :=
      (space.pos.trans_le htook.from_lo).ne'
    simp only [if_neg hppos] at hsound' ⊢
    obtain rfl : l' = l₃ := hsound'.freeList_eq.symm.trans
      (Heap.freeList_eq hl₃ htook.good space.pos space.fits)
    exact .inr ⟨b, l', hfind, hsound', rfl, hallocated, htook, hleaves⟩

/-- What `dealloc` does: the block goes back to the free list. -/
theorem Sound.dealloc_effect (h : Sound space s l) (hs : HeapUse.step s (.dealloc ptr layout) = some s') :
    Sound space s' (Blocks.insert (ptr, layout.need) l) ∧ s'.heap.total = s.heap.total ∧
      s'.heap.regions = s.heap.regions ∧ s'.heap.allocated = s.heap.allocated - layout.need ∧
      s.live.Perm ((ptr, layout) :: s'.live) := by
  obtain ⟨l', hsound'⟩ := h.dealloc hs
  rw [HeapUse.step] at hs
  split_ifs at hs with hlive
  obtain ⟨h', hdealloc, hl'⟩ := h.dealloc_returns hlive
  rw [hdealloc] at hs
  cases hs
  obtain rfl : l' = Blocks.insert (ptr, layout.need) l := hsound'.freeList_eq.symm.trans
    (Heap.freeList_eq hl' (h.good.insert (h.fits hlive)) space.pos space.fits)
  have hregions := Heap.regions_insert hdealloc
  obtain ⟨htotal, hallocated⟩ := Heap.totals_insert hdealloc
  exact ⟨hsound', htotal, hregions, hallocated, List.perm_cons_erase hlive⟩

theorem held_perm {live live' : List (ℕ × Layout)} (h : live.Perm live') {x : ℕ} :
    Held live x ↔ Held live' x :=
  exists_congr fun _ => and_congr_left' h.mem_iff

theorem sum_need_perm {live live' : List (ℕ × Layout)}
    (h : live.Perm ((ptr, layout) :: live')) :
    (live.map fun a => a.2.need).sum = layout.need + (live'.map fun a => a.2.need).sum :=
  (h.map fun a => a.2.need).sum_nat

/-- An allocation keeps every byte, or leaves a tail that is too small for a block. -/
theorem Filled.alloc (h : Filled ds s l) (hs : step s (.alloc layout) = some s') :
    (∃ l', Filled ds s' l') ∧ Fills s (.alloc layout) ∨
    (∃ l', Sound space s' l' ∧ Blocks.bytes l' + s'.heap.allocated < s'.heap.total) ∧
      ¬Fills s (.alloc layout) := by
  unfold Fills
  rw [h.sound.freeList_eq]
  obtain ⟨htotal, -, ⟨hnone, rfl⟩ | ⟨b, l', hfind, hsound', hlive, hallocated, htook, hleaves⟩⟩ :=
    h.sound.alloc_effect hs
  · refine .inl ⟨⟨l, h⟩, fun b hb => ?_⟩
    exact absurd (List.find?_some hb) (hnone b (List.mem_of_find?_eq_some hb))
  · have hbytes := hleaves.bytes
    have hsum := h.bytes
    by_cases hfill : Heap.tailOf (max layout.align MIN_ALIGN) layout.need b = 0 ∨
        BLOCK_SIZE ≤ Heap.tailOf (max layout.align MIN_ALIGN) layout.need b
    · refine .inl ⟨⟨l', hsound', ?_, ?_, fun x => ?_⟩, fun c hc => ?_⟩
      · rw [hlive, hallocated, h.allocated, List.map_cons, List.sum_cons, Nat.add_comm]
      · split_ifs at hbytes <;> omega
      · rw [h.covers, hlive, held_cons]
        constructor
        · rintro (hx | hx)
          · rcases hleaves.covers hfill x hx with hleft | htaken
            · exact .inl hleft
            · exact .inr (.inl htaken)
          · exact .inr (.inr hx)
        · rintro (hx | hx | hx)
          · exact .inl (htook.left x hx).1
          · exact .inl (htook.taken x hx.1 hx.2)
          · exact .inr hx
      · rw [hfind] at hc
        cases hc
        exact hfill
    · refine .inr ⟨⟨l', hsound', ?_⟩, fun hfills => hfill (hfills b hfind)⟩
      rw [not_or] at hfill
      rw [if_neg hfill.2] at hbytes
      have := hfill.1
      omega

theorem Filled.dealloc (h : Filled ds s l) (hs : step s (.dealloc ptr layout) = some s') :
    ∃ l', Filled ds s' l' := by
  obtain ⟨hsound', htotal, -, hallocated', hperm⟩ := h.sound.dealloc_effect hs
  have hsum := sum_need_perm hperm
  have hallocated := h.allocated
  have hbytes := h.bytes
  refine ⟨_, hsound', ?_, ?_, fun x => ?_⟩
  · omega
  · rw [Blocks.bytes_insert]
    dsimp only
    omega
  · rw [h.covers, held_perm hperm, held_cons, Blocks.covers_insert]
    tauto

theorem Filled.store {addr v : ℕ} (h : Filled ds s l) (hs : step s (.store addr v) = some s') :
    Filled ds s' l := by
  have hsound' := h.sound.store hs
  rw [step] at hs
  split_ifs at hs
  cases hs
  exact ⟨hsound', h.allocated, h.bytes, h.covers⟩

/-- Every step that leaves no tail keeps all bytes, and every other one loses some. -/
theorem filled_step (h : Filled ds s l) (hs : step s a = some s') :
    (∃ l', Filled ds s' l') ∧ Fills s a ∨
    (∃ l', Sound space s' l' ∧ Blocks.bytes l' + s'.heap.allocated < s'.heap.total) ∧ ¬Fills s a := by
  cases a with
  | alloc layout => exact h.alloc hs
  | dealloc ptr layout => exact .inl ⟨h.dealloc hs, trivial⟩
  | store addr v => exact .inl ⟨⟨l, h.store hs⟩, trivial⟩

/-! ## The start -/

/-- A page-aligned region that nobody has goes to the free list. -/
theorem Sound.addRegion (h : Sound space s l) {start size : ℕ} (hpage : PAGE_SIZE ∣ start)
    (hlow : PAGE_SIZE ≤ start) (hfits : start + size ≤ 2 ^ 64) (hbig : BLOCK_SIZE ≤ size)
    (hfree : ∀ x, start ≤ x → x < start + size → ¬Covers l x ∧ ¬Held s.live x) :
    ∃ heap, s.heap.addRegion start size = some heap ∧
      Sound space { s with heap := heap } (Blocks.insert (start, size) l) ∧
      heap.total = s.heap.total + size ∧ heap.allocated = s.heap.allocated ∧
      heap.regions = if s.heap.regions.length < MAX_REGIONS then
        s.heap.regions ++ [(start, start + size)] else s.heap.regions := by
  have hstart : alignUp start MIN_ALIGN = start := by
    obtain ⟨k, hk⟩ := hpage
    rw [hk, alignUp, MIN_ALIGN, PAGE_SIZE]
    omega
  have hin : Heap.Fits space.start (space.start + space.size) l (start, size) := by
    refine ⟨Nat.dvd_trans (by decide) hpage, hbig, hlow, ?_, fun x hx hx' => (hfree x hx hx').1⟩
    show start + size ≤ PAGE_SIZE + (2 ^ 64 - PAGE_SIZE)
    unfold PAGE_SIZE
    omega
  obtain ⟨heap, hinsert, hl⟩ := Heap.insert_spec (h := { s.heap with
    total := s.heap.total + size
    regions := if s.heap.regions.length < MAX_REGIONS then s.heap.regions ++ [(start, start + size)]
      else s.heap.regions }) ⟨h.lists.path, h.lists.sizes⟩ h.good space.pos space.fits hin
  obtain ⟨htotal, hallocated⟩ := Heap.totals_insert hinsert
  refine ⟨heap, ?_, ⟨hl, h.good.insert hin, h.aligned, h.inside, fun a ha x hx hx' hcov => ?_, h.apart⟩,
    htotal, hallocated, Heap.regions_insert hinsert⟩
  · rw [Heap.addRegion, hstart]
    dsimp only
    rw [if_neg (Nat.not_lt.mpr hbig)]
    exact hinsert
  · rcases Blocks.covers_insert.mp hcov with hnew | hold
    · exact (hfree x hnew.1 hnew.2).2 ⟨a, ha, hx, hx'⟩
    · exact h.free a ha x hx hx' hold

/-- The regions of `ds` are donated to a heap that has those of `done`. -/
theorem grown : ∀ {ds done : List Donated} {h h' : Heap} {l : List (ℕ × ℕ)},
    (done ++ ds).Pairwise (fun c d => c.start + c.size ≤ d.start ∨ d.start + d.size ≤ c.start) →
    Filled done ⟨h, []⟩ l → ds.foldlM (fun h d => h.addRegion d.start d.size) h = some h' →
      ∃ l', Filled (done ++ ds) ⟨h', []⟩ l' := by
  intro ds
  induction ds with
  | nil =>
    intro done h h' l _ hfilled hfold
    cases hfold
    rw [List.append_nil]
    exact ⟨l, hfilled⟩
  | cons d ds ih =>
    intro done h h' l hapart hfilled hfold
    rw [List.append_cons] at hapart ⊢
    obtain ⟨h₁, hadd, hrest⟩ := Option.bind_eq_some_iff.mp hfold
    refine (?_ : ∃ l₁, Filled (done ++ [d]) ⟨h₁, []⟩ l₁).elim fun l₁ hl₁ => ih hapart hl₁ hrest
    have hregions : regions (done ++ [d]) =
        regions done ++ if BLOCK_SIZE ≤ d.size then [(d.start, d.size)] else [] := by
      unfold regions
      rw [List.map_append, List.filter_append, List.map_singleton, List.filter_singleton]
      simp
    by_cases hsmall : d.size < BLOCK_SIZE
    · dsimp only at hadd
      rw [Heap.addRegion] at hadd
      dsimp only at hadd
      rw [if_pos hsmall] at hadd
      cases hadd
      rw [if_neg (Nat.not_le.mpr hsmall), List.append_nil] at hregions
      exact ⟨l, hfilled.sound, hfilled.allocated, hfilled.bytes, hregions ▸ hfilled.covers⟩
    · have hbig := Nat.not_lt.mp hsmall
      rw [if_pos hbig] at hregions
      have hfree : ∀ x, d.start ≤ x → x < d.start + d.size → ¬Covers l x ∧ ¬Held [] x := by
        refine fun x hx hx' => ⟨fun hcov => ?_, by simp [Held]⟩
        obtain ⟨b, hb, hfrom, hto⟩ := (hfilled.covers x).mpr (.inl hcov)
        obtain ⟨c, hc, rfl⟩ := List.mem_map.mp (List.mem_filter.mp hb).1
        have hcd := (List.pairwise_append.mp (List.pairwise_append.mp hapart).1).2.2 c hc d
          (List.mem_singleton.mpr rfl)
        dsimp only at hfrom hto
        omega
      obtain ⟨h₂, hadd', hsound, htotal, hallocated, -⟩ :=
        hfilled.sound.addRegion d.aligned (Nat.le_of_dvd d.pos d.aligned) d.fits hbig hfree
      dsimp only at hadd hadd'
      rw [hadd'] at hadd
      cases hadd
      have hbytes := hfilled.bytes
      refine ⟨_, hsound, hallocated.trans hfilled.allocated, ?_, fun x => ?_⟩
      · show Blocks.bytes _ + h₁.allocated = h₁.total
        rw [Blocks.bytes_insert, htotal, hallocated]
        dsimp only at hbytes ⊢
        omega
      · rw [hregions, Blocks.covers_append, hfilled.covers, Blocks.covers_insert, Blocks.covers_cons]
        simp [Held, Covers, or_comm]

theorem filled_start (hs : Grown ds s) : ∃ l, Filled ds s l := by
  obtain ⟨mem, hfold⟩ := hs.heap
  have hempty : Filled [] ⟨Heap.new mem, []⟩ [] := by
    refine ⟨sound_idle rfl (lists_new mem) (good_nil _ _), rfl, rfl, fun x => ?_⟩
    simp [regions, Covers, Held]
  have hlive := hs.live
  obtain ⟨heap, live⟩ := s
  cases hlive
  have hapart : ([] ++ ds).Pairwise fun c d : Donated =>
      c.start + c.size ≤ d.start ∨ d.start + d.size ≤ c.start := hs.apart
  exact grown hapart hempty hfold

end

/-! ## Runs -/

/-- In a run of a heap the free bytes and those that are handed out make up all that was donated, and
everything is free again once it has been given back, exactly when no allocation leaves a tail behind
itself that is too small for a block. -/
theorem bytes_conserved_iff {ds : List Donated} {s : HeapUse} (hs : Grown ds s) (acts : List Act) :
    Run.Throughout step (Conserved ds) s acts ↔ Run.Meets step Fills s acts := by
  obtain ⟨l, hfilled⟩ := filled_start hs
  refine Run.throughout_iff_meets (fun s => ∃ l, Filled ds s l) (fun s a s' ⟨l, h⟩ hok hstep => ?_)
    (fun s a s' ⟨l, h⟩ _ hstep => ?_) (fun s a ⟨l, h⟩ hnone => ?_) ⟨l, hfilled⟩ hfilled.conserved acts
  · rcases filled_step h hstep with ⟨h', -⟩ | ⟨-, hnot⟩
    · exact h'
    · exact absurd hok hnot
  · rcases filled_step h hstep with ⟨⟨l', h'⟩, hok⟩ | ⟨⟨l', hsound, hlost⟩, hnot⟩
    · exact iff_of_true h'.conserved hok
    · refine iff_of_false (fun hc => ?_) hnot
      have := hsound.freeList_eq ▸ hc.bytes
      omega
  · -- an allocation returns
    cases a with
    | alloc layout =>
      obtain ⟨p, h', halloc, -⟩ := h.sound.alloc_returns layout
      rw [step, halloc] at hnone
      cases hnone
    | _ => trivial

/-- An allocation of a whole page but for 8 bytes, which is given back. -/
def demoTail : List Act :=
  [.alloc ⟨4088, 8, ⟨3, rfl⟩, by decide⟩, .dealloc 0xFFFF000040000000 ⟨4088, 8, ⟨3, rfl⟩, by decide⟩]

theorem grown_onePage : ∃ s, Grown [onePage] s ∧ s.heap.freeList = [(0xFFFF000040000000, 4096)] ∧
    (Run.exec step s demoTail).map (fun s => (s.live.isEmpty, s.heap.freeList, s.heap.total)) =
      some (true, [(0xFFFF000040000000, 4088)], 4096) := by
  have hrun : (((Heap.new fun _ => 0).addRegion onePage.start onePage.size).map fun heap =>
      (heap.freeList, (Run.exec step ⟨heap, []⟩ demoTail).map fun s =>
        (s.live.isEmpty, s.heap.freeList, s.heap.total))) =
      some ([(0xFFFF000040000000, 4096)], some (true, [(0xFFFF000040000000, 4088)], 4096)) := by decide
  obtain ⟨heap, hadd, hrest⟩ := Option.map_eq_some_iff.mp hrun
  obtain ⟨hlist, hexec⟩ := Prod.mk.inj hrest
  exact ⟨⟨heap, []⟩, ⟨List.pairwise_singleton _ _, ⟨_, by rw [List.foldlM_cons, hadd]; rfl⟩, rfl⟩, hlist, hexec⟩

theorem bytes_conserved_iff_onePage : ∃ s, Grown [onePage] s ∧
    (Run.Throughout step (Conserved [onePage]) s demoTail ↔ Run.Meets step Fills s demoTail) := by
  obtain ⟨s, hs, -⟩ := grown_onePage
  exact ⟨s, hs, bytes_conserved_iff hs demoTail⟩

/-- Everything is given back, and 8 bytes of the region are in no free block. -/
theorem tail_lost : ∃ s s', Grown [onePage] s ∧ Run.exec step s demoTail = some s' ∧ s'.live = [] ∧
    s'.heap.freeList = [(0xFFFF000040000000, 4088)] ∧ s'.heap.total = 4096 ∧
    ¬Conserved [onePage] s' := by
  obtain ⟨s, hs, -, hexec⟩ := grown_onePage
  obtain ⟨s', hs', hstate⟩ := Option.map_eq_some_iff.mp hexec
  obtain ⟨hlive, hrest⟩ := Prod.mk.inj hstate
  obtain ⟨hlist, htotal⟩ := Prod.mk.inj hrest
  have hnil : s'.live = [] := List.isEmpty_iff.mp hlive
  refine ⟨s, s', hs, hs', hnil, hlist, htotal, fun hc => ?_⟩
  have hcov : Covers s'.heap.freeList 0xFFFF000040000FF8 :=
    (hc.covers hnil _).mpr ⟨(0xFFFF000040000000, 4096), by decide, by decide, by decide⟩
  rw [hlist] at hcov
  obtain ⟨b, hb, -, hto⟩ := hcov
  rw [List.mem_singleton] at hb
  subst hb
  exact absurd hto (by decide)

/-! ## Room -/

end HeapUse

namespace Heap

/-- A free block has an aligned address, at its start or far enough from it for a block in front, where
the allocation fits. -/
def Room (h : Heap) (layout : Layout) : Prop :=
  ∃ b ∈ h.freeList, ∃ start, layout.align ∣ start ∧ b.1 ≤ start ∧
    (start = b.1 ∨ b.1 + BLOCK_SIZE ≤ start) ∧ start + layout.need ≤ b.1 + b.2

/-- The first aligned address is too close to the start of the block. -/
def Short (layout : Layout) (b : ℕ × ℕ) : Prop := alignUp b.1 layout.align = b.1 + MIN_ALIGN

section

variable {layout : Layout} {v : ℕ} {b : ℕ × ℕ}

theorem align_pos (layout : Layout) : 0 < layout.align := by
  obtain ⟨k, hk⟩ := layout.pow
  rw [hk]
  exact Nat.two_pow_pos k

/-- It is the first multiple from `v` on. -/
theorem alignUp_le {align start : ℕ} (hpos : 0 < align) (hdvd : align ∣ start) (hle : v ≤ start) :
    alignUp v align ≤ start := by
  obtain ⟨q, rfl⟩ := hdvd
  have hlt := alignUp_lt hpos v
  obtain ⟨n, hn⟩ := dvd_alignUp align v
  rw [hn] at hlt ⊢
  have hlt' : align * n < align * (q + 1) := by
    rw [Nat.mul_succ]
    omega
  exact Nat.mul_le_mul_left _ (Nat.le_of_lt_succ (Nat.lt_of_mul_lt_mul_left hlt'))

theorem alignUp_of_dvd {align : ℕ} (hpos : 0 < align) (hdvd : align ∣ v) : alignUp v align = v :=
  Nat.le_antisymm (alignUp_le hpos hdvd le_rfl) (le_alignUp hpos v)

/-- The blocks are aligned to 8 bytes as they are. -/
theorem alignUp_max (hb : MIN_ALIGN ∣ v) :
    alignUp v (max layout.align MIN_ALIGN) = alignUp v layout.align := by
  rcases Nat.le_total layout.align MIN_ALIGN with hle | hle
  · have hdvd : layout.align ∣ MIN_ALIGN := by
      obtain ⟨k, hk⟩ := layout.pow
      rw [hk, show MIN_ALIGN = 2 ^ 3 from rfl] at hle ⊢
      exact Nat.pow_dvd_pow 2 ((Nat.pow_le_pow_iff_right (by decide)).mp hle)
    rw [max_eq_right hle, alignUp_of_dvd (by decide) hb,
      alignUp_of_dvd (align_pos layout) (Nat.dvd_trans hdvd hb)]
  · rw [max_eq_left hle]

theorem dvd_front (hb : MIN_ALIGN ∣ b.1) : MIN_ALIGN ∣ alignUp b.1 layout.align - b.1 := by
  obtain ⟨align, halign, -, hmin, -⟩ := align_cases layout
  rw [← alignUp_max hb, halign]
  exact Nat.dvd_sub (Nat.dvd_trans hmin (dvd_alignUp align b.1)) hb

/-- What the test of `alloc` asks of a block. -/
theorem takes_iff (hb : MIN_ALIGN ∣ b.1) : takes (max layout.align MIN_ALIGN) layout.need b ↔
    ¬Short layout b ∧ alignUp b.1 layout.align - b.1 + layout.need ≤ b.2 := by
  have hle := le_alignUp (align_pos layout) b.1
  have hfront : MIN_ALIGN ∣ alignUp b.1 layout.align - b.1 := dvd_front hb
  unfold takes Short
  rw [decide_eq_true_iff, alignUp_max hb]
  unfold MIN_ALIGN at hfront ⊢
  unfold BLOCK_SIZE
  omega

/-- What room there is in a block: at its first aligned address, or, if that is too close to its start,
at the next one. -/
theorem room_iff (hb : MIN_ALIGN ∣ b.1) :
    (∃ start, layout.align ∣ start ∧ b.1 ≤ start ∧ (start = b.1 ∨ b.1 + BLOCK_SIZE ≤ start) ∧
      start + layout.need ≤ b.1 + b.2) ↔
    ¬Short layout b ∧ alignUp b.1 layout.align - b.1 + layout.need ≤ b.2 ∨
      Short layout b ∧ MIN_ALIGN + layout.align + layout.need ≤ b.2 := by
  have hle := le_alignUp (align_pos layout) b.1
  have hlt := alignUp_lt (align_pos layout) b.1
  have hdvd := dvd_alignUp layout.align b.1
  have hfront : MIN_ALIGN ∣ alignUp b.1 layout.align - b.1 := dvd_front hb
  unfold Short MIN_ALIGN at *
  unfold BLOCK_SIZE
  constructor
  · rintro ⟨start, hstart, hfrom, hfar, hfits⟩
    have hfirst := alignUp_le (align_pos layout) hstart hfrom
    by_cases hshort : alignUp b.1 layout.align = b.1 + 8
    · refine .inr ⟨hshort, ?_⟩
      have hnext : layout.align ≤ start - alignUp b.1 layout.align :=
        Nat.le_of_dvd (by omega) (Nat.dvd_sub hstart hdvd)
      omega
    · exact .inl ⟨hshort, by omega⟩
  · rintro (⟨hshort, hfits⟩ | ⟨hshort, hfits⟩)
    · exact ⟨alignUp b.1 layout.align, hdvd, hle, by omega, by omega⟩
    · exact ⟨alignUp b.1 layout.align + layout.align, Nat.dvd_add hdvd (Nat.dvd_refl _), by omega, by omega,
        by omega⟩

end

end Heap

namespace HeapUse

section

variable {ds : List Donated} {s : HeapUse}

/-- In every history the free list is as it should be. -/
theorem sound_reachable (h : Run.Reachable step Run.always (Grown ds) s) : ∃ l, Sound space s l :=
  h.invariant (fun s => ∃ l, Sound space s l)
    (fun _ hs => (filled_start hs).imp fun _ h => h.sound) fun _ _ _ ⟨_, hi⟩ _ hs => hi.step hs

/-- In every history an allocation finds the room that there is exactly when, if a free block has room
at its second aligned address only, another one has room at its first. -/
theorem finds_room_iff (h : Run.Reachable step Run.always (Grown ds) s) (layout : Layout) :
    (s.heap.Room layout → ∃ p h', s.heap.alloc layout = some (p, h') ∧ p ≠ 0) ↔
      ((∃ b ∈ s.heap.freeList, Heap.Short layout b ∧ MIN_ALIGN + layout.align + layout.need ≤ b.2) →
        ∃ b ∈ s.heap.freeList, ¬Heap.Short layout b ∧
          alignUp b.1 layout.align - b.1 + layout.need ≤ b.2) := by
  obtain ⟨l, hl⟩ := sound_reachable h
  have haligned := hl.good.aligned
  have hfound : (∃ p h', s.heap.alloc layout = some (p, h') ∧ p ≠ 0) ↔
      ∃ b ∈ l, ¬Heap.Short layout b ∧ alignUp b.1 layout.align - b.1 + layout.need ≤ b.2 := by
    obtain ⟨p, h', halloc, -, ⟨hnone, hp, -⟩ | ⟨b, l', hfind, -, -, -, htook, -⟩⟩ := hl.alloc_returns layout
    · refine iff_of_false ?_ ?_
      · rintro ⟨q, h'', hq, hne⟩
        rw [halloc] at hq
        cases hq
        exact hne hp
      · rintro ⟨b, hb, hfits⟩
        exact hnone b hb ((Heap.takes_iff (haligned b hb)).mpr hfits)
    · have hb := List.mem_of_find?_eq_some hfind
      exact iff_of_true ⟨p, h', halloc, (space.pos.trans_le htook.from_lo).ne'⟩
        ⟨b, hb, (Heap.takes_iff (haligned b hb)).mp (List.find?_some hfind)⟩
  have hroom : s.heap.Room layout ↔
      (∃ b ∈ l, ¬Heap.Short layout b ∧ alignUp b.1 layout.align - b.1 + layout.need ≤ b.2) ∨
      ∃ b ∈ l, Heap.Short layout b ∧ MIN_ALIGN + layout.align + layout.need ≤ b.2 := by
    unfold Heap.Room
    rw [hl.freeList_eq, ← exists_or]
    refine exists_congr fun b => ?_
    rw [← and_or_left]
    exact and_congr_right fun hb => Heap.room_iff (haligned b hb)
  rw [hl.freeList_eq, hroom, hfound]
  exact ⟨fun h hsecond => h (.inr hsecond), fun h hany => hany.elim id h⟩

/-- A page whose first 24 bytes are handed out: the rest starts 8 bytes in front of a multiple of 16. -/
def demoShort : List Act := [.alloc ⟨24, 8, ⟨3, rfl⟩, by decide⟩]

theorem finds_room_iff_demoShort : ∃ s s', Grown [onePage] s ∧ Run.exec step s demoShort = some s' ∧
    ∀ layout : Layout, (s'.heap.Room layout → ∃ p h', s'.heap.alloc layout = some (p, h') ∧ p ≠ 0) ↔
      ((∃ b ∈ s'.heap.freeList, Heap.Short layout b ∧ MIN_ALIGN + layout.align + layout.need ≤ b.2) →
        ∃ b ∈ s'.heap.freeList, ¬Heap.Short layout b ∧
          alignUp b.1 layout.align - b.1 + layout.need ≤ b.2) := by
  have hrun : (((Heap.new fun _ => 0).addRegion onePage.start onePage.size).bind fun heap =>
      Run.exec step ⟨heap, []⟩ demoShort).isSome = true := by decide
  obtain ⟨s', hs'⟩ := Option.isSome_iff_exists.mp hrun
  obtain ⟨heap, hadd, hexec⟩ := Option.bind_eq_some_iff.mp hs'
  have hgrown : Grown [onePage] ⟨heap, []⟩ :=
    ⟨List.pairwise_singleton _ _, ⟨_, by rw [List.foldlM_cons, hadd]; rfl⟩, rfl⟩
  exact ⟨⟨heap, []⟩, s', hgrown, hexec, fun layout =>
    finds_room_iff (Run.reachable_of_exec hgrown hexec) layout⟩

/-- A free block of 4072 bytes, and an allocation of 16 bytes at a multiple of 16 fails. -/
theorem room_missed : ∃ s s', Grown [onePage] s ∧ Run.exec step s demoShort = some s' ∧
    s'.heap.freeList = [(0xFFFF000040000018, 4072)] ∧ s'.heap.Room ⟨16, 16, ⟨4, rfl⟩, by decide⟩ ∧
    (s'.heap.alloc ⟨16, 16, ⟨4, rfl⟩, by decide⟩).map Prod.fst = some 0 := by
  have hrun : (((Heap.new fun _ => 0).addRegion onePage.start onePage.size).bind fun heap =>
      Run.exec step ⟨heap, []⟩ demoShort).map (fun s => (s.heap.freeList,
        (s.heap.alloc ⟨16, 16, ⟨4, rfl⟩, by decide⟩).map Prod.fst)) =
      some ([(0xFFFF000040000018, 4072)], some 0) := by decide
  obtain ⟨s', hs', hstate⟩ := Option.map_eq_some_iff.mp hrun
  obtain ⟨heap, hadd, hexec⟩ := Option.bind_eq_some_iff.mp hs'
  obtain ⟨hlist, halloc⟩ := Prod.mk.inj hstate
  have hgrown : Grown [onePage] ⟨heap, []⟩ :=
    ⟨List.pairwise_singleton _ _, ⟨_, by rw [List.foldlM_cons, hadd]; rfl⟩, rfl⟩
  refine ⟨⟨heap, []⟩, s', hgrown, hexec, hlist, ?_, halloc⟩
  refine ⟨(0xFFFF000040000018, 4072), by rw [hlist]; exact List.mem_singleton.mpr rfl,
    0xFFFF000040000030, by decide, by decide, by decide, by decide⟩

end

end HeapUse

end JungeyOs.Mm
