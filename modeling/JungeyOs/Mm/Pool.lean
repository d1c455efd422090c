import JungeyOs.Mm.Race
import Mathlib.Data.Nat.Count

/-!
# The frame allocator over its history

Models of `init`, `alloc_contiguous`, `total_count` and `free_count`
(`kernel/src/mm/frames.rs`, lines 45–91 and 120–185), and of callers that hold frames, write to
them and give them back.

Results:
* `contiguousLoop_enough`: the loop of `alloc_contiguous` ends.
* `contiguousLoop_some`, `contiguousLoop_none`: what the search for a run finds.
* `Pool.bump_lt`: the sums of the allocator do not wrap around.
* `Pool.frames_sound`: every frame that is handed out lies in the region, apart from every reserved
  range, and nobody else holds it.
-/

namespace JungeyOs.Mm

open Race (blockedRun run)

/-- `MAX_RESERVED` (line 18). -/
def MAX_RESERVED : ℕ := 8

/-- A memory region of the device tree, so far below the end of the address space that the
sums of `frames.rs` do not wrap around. -/
structure Region where
  base : ℕ
  size : ℕ
  fits : base + size + 2 * PAGE_SIZE ≤ 2 ^ 64

/-- A range that must not be handed out, likewise (`main.rs`, lines 125–131, passes the kernel
image and the device tree). -/
structure Range where
  start : ℕ
  stop : ℕ
  fits : stop + 2 * PAGE_SIZE ≤ 2 ^ 64

/-- The ranges that `init` records (lines 49–59). -/
def recorded (ranges : List Range) : List (ℕ × ℕ) :=
  (ranges.take MAX_RESERVED).filterMap fun r =>
    if r.stop ≤ r.start then none else some (pageAlignDown r.start, pageAlignUp r.stop)

/-- The first of the biggest regions (lines 61–66). -/
def biggest (regions : List Region) : Option Region :=
  regions.foldl (fun best r =>
    match best with
    | none => some r
    | some b => if b.size < r.size then some r else best) none

namespace Frames

/-- The loops of `init` (lines 79–89) and `free_count` (lines 173–183): the frames from `p` on
that are not reserved. -/
def countFrom (reserved : List (ℕ × ℕ)) (limit : ℕ) : (fuel p : ℕ) → ℕ
  | 0, _ => 0
  | fuel + 1, p =>
    if limit < p + PAGE_SIZE then 0
    else match blockedUntil reserved p with
      | some skipTo => countFrom reserved limit fuel (pageAlignUp skipTo)
      | none => countFrom reserved limit fuel (p + PAGE_SIZE) + 1

/-- The statics after `init`, and `TOTAL` (lines 48–91). -/
def init (regions : List Region) (ranges : List Range) : Frames × ℕ :=
  let reserved := recorded ranges
  match biggest regions with
  | none => (⟨0, 0, reserved, 0, 0⟩, 0)
  | some r =>
    let start := pageAlignUp r.base
    let limit := pageAlignDown (r.base + r.size)
    if limit ≤ start then (⟨0, 0, reserved, 0, 0⟩, 0)
    else (⟨start, limit, reserved, 0, 0⟩, countFrom reserved limit (limit / PAGE_SIZE + 1) start)

/-- The loop of `alloc_contiguous` (lines 130–151). -/
def contiguousLoop (fr : Frames) (count : ℕ) : ℕ → Option ℕ × Frames
  | 0 => (none, fr)
  | fuel + 1 =>
    let cur := fr.bump
    if cur = 0 ∨ fr.limit < cur + count * PAGE_SIZE then (none, fr)
    else match blockedRun fr.reserved cur 0 count with
      | some skipTo => contiguousLoop { fr with bump := pageAlignUp skipTo } count fuel
      | none => (some cur, { fr with bump := cur + count * PAGE_SIZE })

/-- `alloc_contiguous` (lines 126–152). -/
def allocContiguous (fr : Frames) (count : ℕ) : Option ℕ × Frames :=
  if count = 0 then (none, fr) else fr.contiguousLoop count (fr.reserved.length + 1)

/-- `free_count` (lines 170–185). -/
def freeCount (fr : Frames) : ℕ :=
  (if fr.bump = 0 then 0
    else countFrom fr.reserved fr.limit (fr.limit / PAGE_SIZE + 1) fr.bump) + fr.freeListLen

end Frames

/-! ## The callers -/

/-- `held` are the frames that were handed out and not given back. -/
structure Pool where
  frames : Frames
  total : ℕ
  mem : Memory
  held : List ℕ

namespace Pool

inductive Act
  | alloc
  | allocContiguous (count : ℕ)
  | free (frame : ℕ)
  | write (frame : ℕ) (page : Page)

def step (s : Pool) : Act → Option Pool
  | .alloc =>
    let (r, frames) := s.frames.alloc s.mem
    some { s with frames := frames, held := r.toList ++ s.held }
  | .allocContiguous count =>
    let (r, frames) := s.frames.allocContiguous count
    some { s with frames := frames, held := (r.toList.flatMap fun base => run base count) ++ s.held }
  | .free frame =>
    if frame ∈ s.held then
      let (frames, mem) := s.frames.free s.mem frame
      some { s with frames := frames, mem := mem, held := s.held.erase frame }
    else none
  | .write frame page =>
    if frame ∈ s.held then some { s with mem := Function.update s.mem frame page } else none

/-- After `init`, whatever the memory holds. -/
def Starts (regions : List Region) (ranges : List Range) (s : Pool) : Prop :=
  (s.frames, s.total) = Frames.init regions ranges ∧ s.held = []

def afterInit (regions : List Region) (ranges : List Range) (mem : Memory) : Pool :=
  { frames := (Frames.init regions ranges).1
    total := (Frames.init regions ranges).2
    mem := mem
    held := [] }

theorem starts_afterInit (regions : List Region) (ranges : List Range) (mem : Memory) :
    Starts regions ranges (afterInit regions ranges mem) := ⟨rfl, rfl⟩

end Pool

/-- A page-aligned frame of the chosen region that overlaps no reserved range. -/
structure Usable (regions : List Region) (ranges : List Range) (f : ℕ) : Prop where
  aligned : PAGE_SIZE ∣ f
  inside : ∃ r, biggest regions = some r ∧ r.base ≤ f ∧ f + PAGE_SIZE ≤ r.base + r.size
  unreserved : ∀ r ∈ ranges, r.start < r.stop → f + PAGE_SIZE ≤ r.start ∨ r.stop ≤ f

/-- What the allocator has handed out and what it would hand out next; its loops end. -/
structure Pool.Sound (regions : List Region) (ranges : List Range) (s : Pool) : Prop where
  once : s.held.Nodup
  usable : ∀ f ∈ s.held, Usable regions ranges f
  alloc : ∀ f, (s.frames.alloc s.mem).1 = some f → Usable regions ranges f ∧ f ∉ s.held
  contiguous : ∀ count base, (s.frames.allocContiguous count).1 = some base →
    ∀ i < count, Usable regions ranges (base + i * PAGE_SIZE) ∧ base + i * PAGE_SIZE ∉ s.held
  alloc_ends : ∀ fuel, s.frames.reserved.length < fuel →
    s.frames.bumpLoop fuel = s.frames.bumpLoop (s.frames.reserved.length + 1)
  contiguous_ends : ∀ count fuel, s.frames.reserved.length < fuel →
    s.frames.contiguousLoop count fuel = s.frames.contiguousLoop count (s.frames.reserved.length + 1)
  count_ends : ∀ fuel, s.frames.limit / PAGE_SIZE < fuel →
    Frames.countFrom s.frames.reserved s.frames.limit fuel s.frames.bump =
      Frames.countFrom s.frames.reserved s.frames.limit (s.frames.limit / PAGE_SIZE + 1) s.frames.bump

/-! ## Reserved ranges -/

section

variable {ranges : List Range} {reserved : List (ℕ × ℕ)} {fr fr' : Frames} {f p : ℕ}

namespace Frames

/-- Ranges of whole pages. -/
def Paged (reserved : List (ℕ × ℕ)) : Prop := ∀ r ∈ reserved, PAGE_SIZE ∣ r.1 ∧ PAGE_SIZE ∣ r.2

theorem dvd_pageAlignDown (addr : ℕ) : PAGE_SIZE ∣ pageAlignDown addr := Nat.dvd_mul_left _ _

theorem pageAlignDown_le (addr : ℕ) : pageAlignDown addr ≤ addr := Nat.div_mul_le_self _ _

theorem pageAlignUp_of_dvd (h : PAGE_SIZE ∣ p) : pageAlignUp p = p := by
  obtain ⟨k, rfl⟩ := h
  unfold pageAlignUp PAGE_SIZE
  omega

theorem paged_recorded (ranges : List Range) : Paged (recorded ranges) := by
  intro r hr
  obtain ⟨x, -, hx⟩ := List.mem_filterMap.mp hr
  split_ifs at hx
  cases hx
  exact ⟨dvd_pageAlignDown _, dvd_pageAlignUp _⟩

/-- The frame is in none of the ranges. -/
theorem blockedUntil_eq_none : blockedUntil reserved f = none ↔
    ∀ r ∈ reserved, r.2 ≤ f ∨ f + PAGE_SIZE ≤ r.1 := by
  rw [blockedUntil, Option.map_eq_none_iff, List.find?_eq_none]
  refine forall₂_congr fun r _ => ?_
  simp only [Bool.and_eq_true, decide_eq_true_eq, not_and_or, Nat.not_lt]

/-- The frames up to the end of the range that is in the way are in that range. -/
theorem blocked_of_blocked (hp : Paged reserved) {skipTo : ℕ}
    (h : blockedUntil reserved p = some skipTo) (hdvd : PAGE_SIZE ∣ p) :
    PAGE_SIZE ∣ skipTo ∧ p < skipTo ∧
      ∀ f, p ≤ f → f < skipTo → blockedUntil reserved f ≠ none := by
  obtain ⟨r, hr, rfl⟩ := Option.map_eq_some_iff.mp h
  have hmem := List.mem_of_find?_eq_some hr
  have hover := List.find?_some hr
  simp only [Bool.and_eq_true, decide_eq_true_eq] at hover
  obtain ⟨hstart, hend⟩ := hp r hmem
  -- the range starts on a page, so it starts at `p` or before
  have hle : r.1 ≤ p := by
    obtain ⟨i, hi⟩ := hstart
    obtain ⟨j, rfl⟩ := hdvd
    have hpage : PAGE_SIZE = 4096 := rfl
    rw [hpage] at hi hover ⊢
    omega
  refine ⟨hend, hover.1, fun f hpf hf hnone => ?_⟩
  have hpage := PAGE_SIZE_pos
  rcases blockedUntil_eq_none.mp hnone r hmem with hb | hb <;> omega

/-! ## The search for a run -/

theorem blockedRun_eq_some {cur count : ℕ} : ∀ {i skipTo : ℕ},
    blockedRun reserved cur i count = some skipTo →
    ∃ j, i ≤ j ∧ j < i + count ∧ blockedUntil reserved (cur + j * PAGE_SIZE) = some skipTo ∧
      ∀ k, i ≤ k → k < j → blockedUntil reserved (cur + k * PAGE_SIZE) = none := by
  induction count with
  | zero => nofun
  | succ count ih =>
    intro i skipTo h
    rw [blockedRun] at h
    cases hb : blockedUntil reserved (cur + i * PAGE_SIZE) with
    | some e =>
      rw [hb] at h
      cases h
      exact ⟨i, le_rfl, by omega, hb, fun k hle hlt => absurd hlt (Nat.not_lt.mpr hle)⟩
    | none =>
      rw [hb] at h
      obtain ⟨j, hle, hlt, hj, hbefore⟩ := ih h
      refine ⟨j, by omega, by omega, hj, fun k hik hkj => ?_⟩
      rcases Nat.eq_or_lt_of_le hik with rfl | hlt'
      · exact hb
      · exact hbefore k hlt' hkj

theorem blockedRun_eq_none {cur count : ℕ} : ∀ {i : ℕ},
    blockedRun reserved cur i count = none →
      ∀ j, i ≤ j → j < i + count → blockedUntil reserved (cur + j * PAGE_SIZE) = none := by
  induction count with
  | zero => intro i _ j hle hlt; omega
  | succ count ih =>
    intro i h j hle hlt
    rw [blockedRun] at h
    cases hb : blockedUntil reserved (cur + i * PAGE_SIZE) with
    | some e =>
      rw [hb] at h
      cases h
    | none =>
      rw [hb] at h
      rcases Nat.eq_or_lt_of_le hle with rfl | hlt'
      · exact hb
      · exact ih h j hlt' (by omega)

/-- A range in the way of a run ends after the start of the run. -/
theorem lt_of_blockedRun {cur count skipTo : ℕ} (h : blockedRun reserved cur 0 count = some skipTo) :
    ∃ r ∈ reserved, r.2 = skipTo ∧ cur < skipTo := by
  obtain ⟨j, -, -, hj, -⟩ := blockedRun_eq_some h
  obtain ⟨r, hr, rfl⟩ := Option.map_eq_some_iff.mp hj
  have hover := List.find?_some hr
  simp only [Bool.and_eq_true, decide_eq_true_eq] at hover
  exact ⟨r, List.mem_of_find?_eq_some hr, rfl, by omega⟩

/-- More fuel than ranges ahead gives the result of the loop. -/
theorem contiguousLoop_enough {count fuel fuel' : ℕ} : ∀ {fr : Frames}, fr.ahead < fuel →
    fuel ≤ fuel' → fr.contiguousLoop count fuel' = fr.contiguousLoop count fuel := by
  induction fuel generalizing fuel' with
  | zero => intro fr h; omega
  | succ fuel ih =>
    intro fr h hle
    obtain ⟨k, rfl⟩ : ∃ k, fuel' = k + 1 := ⟨fuel' - 1, by omega⟩
    rw [contiguousLoop, contiguousLoop]
    split_ifs
    · rfl
    · cases hb : blockedRun fr.reserved fr.bump 0 count with
      | none => rfl
      | some skipTo =>
        obtain ⟨r, hr, rfl, hlt⟩ := lt_of_blockedRun hb
        have hup := le_pageAlignUp r.2
        have hahead := @ahead_lt fr (pageAlignUp r.2) ⟨r, hr, hlt, hup⟩
        exact ih (by omega) (by omega)

theorem ahead_le (fr : Frames) : fr.ahead ≤ fr.reserved.length := List.countP_le_length

/-- The loop of `alloc` is that of `alloc_contiguous` for one frame. -/
theorem bumpLoop_eq {fuel : ℕ} : ∀ {fr : Frames}, fr.bumpLoop fuel = fr.contiguousLoop 1 fuel := by
  induction fuel with
  | zero => intro fr; rfl
  | succ fuel ih =>
    intro fr
    rw [bumpLoop, contiguousLoop, Nat.one_mul, Race.blockedRun_one]
    split_ifs
    · rfl
    · cases blockedUntil fr.reserved fr.bump with
      | none => rfl
      | some skipTo => exact ih

/-- A run that is found: it lies from `BUMP` on in the region, and none of it is reserved. -/
structure Found (fr : Frames) (count base : ℕ) : Prop where
  pos : base ≠ 0
  aligned : PAGE_SIZE ∣ base
  from_bump : fr.bump ≤ base
  fits : base + count * PAGE_SIZE ≤ fr.limit
  unblocked : ∀ i < count, blockedUntil fr.reserved (base + i * PAGE_SIZE) = none

theorem contiguousLoop_some {count fuel base : ℕ} : ∀ {fr fr' : Frames}, PAGE_SIZE ∣ fr.bump →
    fr.contiguousLoop count fuel = (some base, fr') →
    fr.Found count base ∧ fr' = { fr with bump := base + count * PAGE_SIZE } := by
  induction fuel with
  | zero => nofun
  | succ fuel ih =>
    intro fr fr' hdvd h
    rw [contiguousLoop] at h
    split_ifs at h with hend
    · cases h
    · cases hb : blockedRun fr.reserved fr.bump 0 count with
      | some skipTo =>
        rw [hb] at h
        obtain ⟨r, hr, rfl, hlt⟩ := lt_of_blockedRun hb
        obtain ⟨hfound, hfr⟩ := ih (dvd_pageAlignUp _) h
        have hup := le_pageAlignUp r.2
        exact ⟨⟨hfound.pos, hfound.aligned, (hlt.le.trans hup).trans hfound.from_bump, hfound.fits,
          hfound.unblocked⟩, hfr⟩
      | none =>
        rw [hb] at h
        cases h
        refine ⟨⟨by omega, hdvd, le_rfl, by omega, fun i hi => ?_⟩, rfl⟩
        exact blockedRun_eq_none hb i (Nat.zero_le i) (by omega)

theorem contiguousLoop_none {count fuel : ℕ} : ∀ {fr fr' : Frames}, PAGE_SIZE ∣ fr.bump →
    fr.contiguousLoop count fuel = (none, fr') →
    fr' = { fr with bump := fr'.bump } ∧ fr.bump ≤ fr'.bump ∧ PAGE_SIZE ∣ fr'.bump := by
  induction fuel with
  | zero => intro fr fr' hdvd h; cases h; exact ⟨rfl, le_rfl, hdvd⟩
  | succ fuel ih =>
    intro fr fr' hdvd h
    rw [contiguousLoop] at h
    split_ifs at h with hend
    · cases h
      exact ⟨rfl, le_rfl, hdvd⟩
    · cases hb : blockedRun fr.reserved fr.bump 0 count with
      | some skipTo =>
        rw [hb] at h
        obtain ⟨r, hr, rfl, hlt⟩ := lt_of_blockedRun hb
        obtain ⟨hfr, hle, hdvd'⟩ := ih (dvd_pageAlignUp _) h
        have hup := le_pageAlignUp r.2
        exact ⟨hfr, (hlt.le.trans hup).trans hle, hdvd'⟩
      | none =>
        rw [hb] at h
        cases h

theorem allocContiguous_some {count base : ℕ} (hdvd : PAGE_SIZE ∣ fr.bump)
    (h : fr.allocContiguous count = (some base, fr')) :
    fr.Found count base ∧ fr' = { fr with bump := base + count * PAGE_SIZE } := by
  unfold allocContiguous at h
  split_ifs at h
  · cases h
  · exact contiguousLoop_some hdvd h

theorem allocContiguous_none {count : ℕ} (hdvd : PAGE_SIZE ∣ fr.bump)
    (h : fr.allocContiguous count = (none, fr')) :
    fr' = { fr with bump := fr'.bump } ∧ fr.bump ≤ fr'.bump ∧ PAGE_SIZE ∣ fr'.bump := by
  unfold allocContiguous at h
  split_ifs at h
  · cases h
    exact ⟨rfl, le_rfl, hdvd⟩
  · exact contiguousLoop_none hdvd h

theorem alloc_none {mem : Memory} (hdvd : PAGE_SIZE ∣ fr.bump) (h : fr.alloc mem = (none, fr')) :
    fr' = { fr with bump := fr'.bump } ∧ fr.bump ≤ fr'.bump ∧ PAGE_SIZE ∣ fr'.bump := by
  unfold alloc at h
  dsimp only at h
  split_ifs at h
  · cases h
  · exact bumpLoop_none hdvd h

/-- A frame that `alloc` hands out comes from the free list or from the region. -/
theorem alloc_some {mem : Memory} (hdvd : PAGE_SIZE ∣ fr.bump) (h : fr.alloc mem = (some f, fr')) :
    fr.freeList ≠ 0 ∧ f = fr.freeList ∧
      fr' = { fr with freeList := link mem f, freeListLen := fr.freeListLen - 1 } ∨
    fr.freeList = 0 ∧ fr.Found 1 f ∧ fr' = { fr with bump := f + PAGE_SIZE } := by
  unfold alloc at h
  dsimp only at h
  by_cases hhead : fr.freeList = 0
  · rw [if_neg (not_not.mpr hhead), bumpLoop_eq] at h
    obtain ⟨hfound, hfr⟩ := contiguousLoop_some hdvd h
    rw [Nat.one_mul] at hfr
    exact .inr ⟨hhead, hfound, hfr⟩
  · rw [if_pos hhead] at h
    cases h
    exact .inl ⟨hhead, rfl, rfl⟩

/-! ## Counting -/

/-- The number of frames below frame `n` that are not reserved. -/
def unreserved (reserved : List (ℕ × ℕ)) (n : ℕ) : ℕ :=
  Nat.count (fun k => blockedUntil reserved (k * PAGE_SIZE) = none) n

theorem unreserved_mono (reserved : List (ℕ × ℕ)) {m n : ℕ} (h : m ≤ n) :
    unreserved reserved m ≤ unreserved reserved n :=
  Nat.count_monotone _ h

theorem unreserved_succ (n : ℕ) : unreserved reserved (n + 1) =
    unreserved reserved n + if blockedUntil reserved (n * PAGE_SIZE) = none then 1 else 0 :=
  Nat.count_succ _ _

/-- Reserved frames do not count. -/
theorem unreserved_eq {m n : ℕ} (hle : m ≤ n)
    (h : ∀ k, m ≤ k → k < n → blockedUntil reserved (k * PAGE_SIZE) ≠ none) :
    unreserved reserved n = unreserved reserved m := by
  induction n, hle using Nat.le_induction with
  | base => rfl
  | succ n hle ih =>
    rw [unreserved_succ, if_neg (h n hle (Nat.lt_succ_self n)), Nat.add_zero]
    exact ih fun k hm hn => h k hm (by omega)

theorem div_le_iff {limit n : ℕ} : limit / PAGE_SIZE ≤ n ↔ limit < n * PAGE_SIZE + PAGE_SIZE := by
  unfold PAGE_SIZE
  omega

/-- With a step for every frame, the loop counts the frames from `p` on that are not reserved. -/
theorem countFrom_eq {limit fuel : ℕ} (hpaged : Paged reserved) : ∀ {n : ℕ},
    limit / PAGE_SIZE < n + fuel → countFrom reserved limit fuel (n * PAGE_SIZE) =
      unreserved reserved (limit / PAGE_SIZE) - unreserved reserved n := by
  have hpage := PAGE_SIZE_pos
  induction fuel with
  | zero =>
    intro n h
    have := unreserved_mono reserved (show limit / PAGE_SIZE ≤ n by omega)
    rw [countFrom]
    omega
  | succ fuel ih =>
    intro n h
    rw [countFrom]
    by_cases hend : limit / PAGE_SIZE ≤ n
    · have := unreserved_mono reserved hend
      rw [if_pos (div_le_iff.mp hend)]
      omega
    · rw [if_neg (mt div_le_iff.mpr hend)]
      cases hb : blockedUntil reserved (n * PAGE_SIZE) with
      | some skipTo =>
        obtain ⟨⟨m, rfl⟩, hlt, hskip⟩ := blocked_of_blocked hpaged hb (Nat.dvd_mul_left ..)
        rw [Nat.mul_comm PAGE_SIZE m] at hlt hskip
        have hnm : n < m := lt_of_mul_lt_mul_right' hlt
        dsimp only
        rw [Nat.mul_comm, pageAlignUp_of_dvd (Nat.dvd_mul_left ..), ih (by omega),
          unreserved_eq hnm.le fun k hnk hkm =>
            hskip _ (Nat.mul_le_mul_right _ hnk) (Nat.mul_lt_mul_of_pos_right hkm hpage)]
      | none =>
        have hle := unreserved_mono reserved (show n + 1 ≤ limit / PAGE_SIZE by omega)
        rw [unreserved_succ, if_pos hb] at hle
        dsimp only
        rw [← Nat.succ_mul, ih (by omega), Nat.succ_eq_add_one, unreserved_succ, if_pos hb]
        omega

end Frames

end

/-! ## Every history -/

namespace Pool

open Frames (blockedUntil)

section

variable {regions : List Region} {ranges : List Range} {i : Frames} {s s' : Pool} {a : Act} {f : ℕ}

/-- After `init` has left the statics `i`: every frame that is held or free was found from `BUMP`
on, as it was then. -/
structure Inv (i : Frames) (s : Pool) : Prop where
  wf : s.frames.WF s.mem
  reserved : s.frames.reserved = i.reserved
  limit : s.frames.limit = i.limit
  bump : i.bump ≤ s.frames.bump
  used : ∀ f ∈ s.held, s.frames.Used s.mem f
  once : s.held.Nodup
  found : ∀ f, f ∈ s.held ∨ f ∈ s.frames.freeFrames s.mem → i.Found 1 f

theorem Inv.of_found (h : Inv i s) {count base j : ℕ} (hf : s.frames.Found count base)
    (hj : j < count) : i.Found 1 (base + j * PAGE_SIZE) := by
  have hpage : PAGE_SIZE = 4096 := rfl
  have hpos := hf.pos
  have hfits := h.limit ▸ hf.fits
  refine ⟨by omega, Nat.dvd_add hf.aligned (Nat.dvd_mul_left ..), ?_, ?_, fun k hk => ?_⟩
  · exact (h.bump.trans hf.from_bump).trans (Nat.le_add_right ..)
  · rw [hpage] at hfits ⊢
    omega
  · obtain rfl : k = 0 := by omega
    rw [Nat.zero_mul, Nat.add_zero, ← h.reserved]
    exact hf.unblocked j hj

/-- A run that is found is in nobody's hands. -/
theorem Inv.not_held (h : Inv i s) {count base j : ℕ} (hf : s.frames.Found count base) :
    base + j * PAGE_SIZE ∉ s.held := fun hheld => by
  have hlt := (h.used _ hheld).lt_bump
  have hle := hf.from_bump
  omega

/-- `BUMP` passes frames that nobody gets. -/
theorem Inv.grow (h : Inv i s) {bump : ℕ} (hle : s.frames.bump ≤ bump) (hdvd : PAGE_SIZE ∣ bump) :
    Inv i { s with frames := { s.frames with bump := bump } } :=
  ⟨h.wf.grow hle hdvd, h.reserved, h.limit, h.bump.trans hle, fun f hf => (h.used f hf).grow hle,
    h.once, h.found⟩

/-- A caller takes a run that was found. -/
theorem Inv.take (h : Inv i s) {count base : ℕ} (hf : s.frames.Found count base) :
    Inv i { s with
      frames := { s.frames with bump := base + count * PAGE_SIZE }
      held := run base count ++ s.held } := by
  have hle : s.frames.bump ≤ base + count * PAGE_SIZE := hf.from_bump.trans (Nat.le_add_right ..)
  have hgrown := h.grow hle (Nat.dvd_add hf.aligned (Nat.dvd_mul_left ..))
  have hrun : ∀ f ∈ run base count, ∃ j < count, f = base + j * PAGE_SIZE := by
    intro f hmem
    obtain ⟨j, hj, rfl⟩ := List.mem_map.mp hmem
    exact ⟨j, List.mem_range.mp hj, rfl⟩
  refine ⟨hgrown.wf, h.reserved, h.limit, hgrown.bump, fun f hmem => ?_, ?_, fun f hmem => ?_⟩
  · rcases List.mem_append.mp hmem with hmem | hmem
    · have hbelow := (Race.mem_run hmem).2
      obtain ⟨j, hj, rfl⟩ := hrun f hmem
      have hpos := hf.pos
      have hfits := hf.fits
      have hpage := PAGE_SIZE_pos
      have hlimit : base + j * PAGE_SIZE < s.frames.limit := by omega
      refine ⟨⟨by omega, hbelow, hlimit, ?_⟩, fun hfree => ?_⟩
      · exact Nat.dvd_add hf.aligned (Nat.dvd_mul_left ..)
      · have hlt := (h.wf.given _ hfree).lt_bump
        have hfrom := hf.from_bump
        omega
    · exact hgrown.used f hmem
  · refine List.nodup_append.mpr ⟨Race.nodup_run base count, h.once, ?_⟩
    rintro f hnew g hold rfl
    obtain ⟨j, -, rfl⟩ := hrun f hnew
    exact h.not_held hf hold
  · rcases hmem with hmem | hmem
    · rcases List.mem_append.mp hmem with hmem | hmem
      · obtain ⟨j, hj, rfl⟩ := hrun f hmem
        exact h.of_found hf hj
      · exact h.found f (.inl hmem)
    · exact h.found f (.inr hmem)

theorem Inv.alloc (h : Inv i s) (hs : step s .alloc = some s') : Inv i s' := by
  cases ha : s.frames.alloc s.mem with
  | mk r frames =>
    rw [step, ha] at hs
    cases hs
    cases r with
    | none =>
      obtain ⟨hsame, hle, hdvd⟩ := Frames.alloc_none h.wf.aligned ha
      rw [hsame]
      exact h.grow hle hdvd
    | some f =>
      rcases Frames.alloc_some h.wf.aligned ha with ⟨hhead, rfl, rfl⟩ | ⟨-, hfound, rfl⟩
      · obtain ⟨hwf, hused, hfresh, hothers⟩ := h.wf.alloc ha
        obtain ⟨len, hlen, hfree⟩ := h.wf.freeFrames_cons hhead
        refine ⟨hwf, h.reserved, h.limit, h.bump, ?_, ?_, ?_⟩
        · exact List.forall_mem_cons.mpr ⟨hused, fun g hg => hothers g (h.used g hg)⟩
        · exact List.nodup_cons.mpr ⟨fun hheld => hfresh (h.used _ hheld), h.once⟩
        · have hrest : ∀ g, g = s.frames.freeList ∨ g ∈ Frames.chain s.mem
              (link s.mem s.frames.freeList) len → i.Found 1 g := fun g hg =>
            h.found g (.inr (hfree ▸ List.mem_cons.mpr hg))
          rintro g (hg | hg)
          · rcases List.mem_cons.mp hg with rfl | hg
            · exact hrest _ (.inl rfl)
            · exact h.found g (.inl hg)
          · rw [Frames.freeFrames, hlen, Nat.add_sub_cancel] at hg
            exact hrest g (.inr hg)
      · have htake := h.take hfound
        rw [Nat.one_mul, show run f 1 = [f] by simp [run]] at htake
        exact htake

theorem Inv.allocContiguous (h : Inv i s) {count : ℕ} (hs : step s (.allocContiguous count) = some s') :
    Inv i s' := by
  cases ha : s.frames.allocContiguous count with
  | mk r frames =>
    rw [step, ha] at hs
    cases hs
    cases r with
    | none =>
      obtain ⟨hsame, hle, hdvd⟩ := Frames.allocContiguous_none h.wf.aligned ha
      rw [hsame]
      exact h.grow hle hdvd
    | some base =>
      obtain ⟨hfound, rfl⟩ := Frames.allocContiguous_some h.wf.aligned ha
      have htake := h.take hfound
      rw [show run base count = (some base).toList.flatMap fun base => run base count by simp] at htake
      exact htake

theorem Inv.free (h : Inv i s) (hs : step s (.free f) = some s') : Inv i s' := by
  rw [step] at hs
  split_ifs at hs with hheld
  cases ha : s.frames.free s.mem f with
  | mk frames mem =>
    rw [ha] at hs
    cases hs
    have hused := h.used f hheld
    obtain ⟨hwf, -, hothers, -⟩ := h.wf.free hused ha
    have hfree := h.wf.freeFrames_free hused ha
    have hmem : ∀ g, g ∈ s.held.erase f ↔ g ≠ f ∧ g ∈ s.held := fun g => h.once.mem_erase_iff
    refine ⟨hwf, ?_, ?_, ?_, fun g hg => ?_, h.once.erase f, ?_⟩
    · cases ha
      exact h.reserved
    · cases ha
      exact h.limit
    · cases ha
      exact h.bump
    · exact hothers g ((hmem g).mp hg).1 (h.used g ((hmem g).mp hg).2)
    · rintro g (hg | hg)
      · exact h.found g (.inl ((hmem g).mp hg).2)
      · rw [hfree] at hg
        rcases List.mem_cons.mp hg with rfl | hg
        · exact h.found g (.inl hheld)
        · exact h.found g (.inr hg)

theorem Inv.write (h : Inv i s) {page : Page} (hs : step s (.write f page) = some s') : Inv i s' := by
  rw [step] at hs
  split_ifs at hs with hheld
  cases hs
  have hused := h.used f hheld
  obtain ⟨hwf, hothers⟩ := h.wf.write hused page
  obtain ⟨-, hsame⟩ := h.wf.congr (Function.update s.mem f page) fun g hg =>
    Function.update_of_ne (ne_of_mem_of_not_mem hg hused.notFree) _ _
  refine ⟨hwf, h.reserved, h.limit, h.bump, fun g hg => hothers g (h.used g hg), h.once, ?_⟩
  rw [hsame]
  exact h.found

theorem Inv.step (h : Inv i s) (hs : Pool.step s a = some s') : Inv i s' := by
  cases a with
  | alloc => exact h.alloc hs
  | allocContiguous count => exact h.allocContiguous hs
  | free frame => exact h.free hs
  | write frame page => exact h.write hs

/-! ## From the start -/

/-- `init` finds no frame, or those of the region. -/
theorem init_cases (regions : List Region) (ranges : List Range) :
    (Frames.init regions ranges).1 = ⟨0, 0, recorded ranges, 0, 0⟩ ∨
      ∃ r, biggest regions = some r ∧ (Frames.init regions ranges).1 =
        ⟨pageAlignUp r.base, pageAlignDown (r.base + r.size), recorded ranges, 0, 0⟩ := by
  unfold Frames.init
  cases hr : biggest regions with
  | none => exact .inl rfl
  | some r =>
    dsimp only
    split_ifs with hend
    · exact .inl rfl
    · exact .inr ⟨r, rfl, rfl⟩

theorem wf_init (regions : List Region) (ranges : List Range) (mem : Memory) :
    (Frames.init regions ranges).1.WF mem := by
  rcases init_cases regions ranges with h | ⟨r, -, h⟩ <;> rw [h]
  · exact ⟨Nat.zero_le _, dvd_zero _, rfl, List.nodup_nil, by simp [Frames.freeFrames, Frames.chain]⟩
  · refine ⟨?_, dvd_pageAlignUp _, rfl, List.nodup_nil, by simp [Frames.freeFrames, Frames.chain]⟩
    have hle := Frames.pageAlignDown_le (r.base + r.size)
    have hfits := r.fits
    exact hle.trans (by omega)

theorem inv_start (hs : Starts regions ranges s) : Inv (Frames.init regions ranges).1 s := by
  obtain ⟨hinit, hheld⟩ := hs
  have hframes : s.frames = (Frames.init regions ranges).1 := congrArg Prod.fst hinit
  have hfree : s.frames.freeFrames s.mem = [] := by
    rcases init_cases regions ranges with h | ⟨r, -, h⟩ <;>
    · rw [hframes, h]
      rfl
  refine ⟨hframes ▸ wf_init regions ranges s.mem, by rw [hframes], by rw [hframes], by rw [hframes],
    ?_, ?_, ?_⟩
  · simp [hheld]
  · simp [hheld]
  · simp [hheld, hfree]

theorem inv_reachable (h : Run.Reachable step Run.always (Starts regions ranges) s) :
    Inv (Frames.init regions ranges).1 s :=
  h.invariant _ (fun _ => inv_start) fun _ _ _ hi _ hs => hi.step hs

/-- The frames from `BUMP` on, as `init` leaves it, may be handed out. -/
theorem usable_of_found (hlen : ranges.length ≤ MAX_RESERVED)
    (hf : (Frames.init regions ranges).1.Found 1 f) : Usable regions ranges f := by
  have hpage := PAGE_SIZE_pos
  have hpos := hf.pos
  rcases init_cases regions ranges with h | ⟨r, hr, h⟩ <;> rw [h] at hf
  · have hfits := hf.fits
    dsimp only at hfits
    omega
  · refine ⟨hf.aligned, ⟨r, hr, (le_pageAlignUp _).trans hf.from_bump, ?_⟩, fun x hx hne => ?_⟩
    · have hfits := hf.fits
      rw [Nat.one_mul] at hfits
      exact hfits.trans (Frames.pageAlignDown_le _)
    · have hrecorded : (pageAlignDown x.start, pageAlignUp x.stop) ∈ recorded ranges := by
        refine List.mem_filterMap.mpr ⟨x, ?_, if_neg (Nat.not_le.mpr hne)⟩
        rw [List.take_of_length_le hlen]
        exact hx
      have hfree := hf.unblocked 0 Nat.one_pos
      rw [Nat.zero_mul, Nat.add_zero, Frames.blockedUntil_eq_none] at hfree
      rcases hfree _ hrecorded with hend | hstart
      · exact .inr ((le_pageAlignUp _).trans hend)
      · exact .inl (hstart.trans (Frames.pageAlignDown_le _))

/-- The region and the reserved ranges end at `b` or before, and so does `BUMP`. -/
structure Low (b : ℕ) (fr : Frames) : Prop where
  bump : fr.bump ≤ b
  limit : fr.limit ≤ b
  reserved : ∀ r ∈ fr.reserved, pageAlignUp r.2 ≤ b

theorem Low.contiguousLoop {b count fuel : ℕ} : ∀ {fr : Frames}, Low b fr →
    Low b (fr.contiguousLoop count fuel).2 := by
  induction fuel with
  | zero => exact id
  | succ fuel ih =>
    intro fr h
    rw [Frames.contiguousLoop]
    split_ifs with hend
    · exact h
    · cases hb : blockedRun fr.reserved fr.bump 0 count with
      | some skipTo =>
        obtain ⟨r, hr, rfl, -⟩ := Frames.lt_of_blockedRun hb
        exact ih ⟨h.reserved r hr, h.limit, h.reserved⟩
      | none =>
        have hlimit := h.limit
        exact ⟨show fr.bump + count * PAGE_SIZE ≤ b by omega, h.limit, h.reserved⟩

theorem Low.step {b : ℕ} (h : Low b s.frames) (hs : Pool.step s a = some s') : Low b s'.frames := by
  cases a with
  | alloc =>
    have hnext : s'.frames = (s.frames.alloc s.mem).2 := by
      cases hs
      rfl
    rw [hnext, Frames.alloc]
    split_ifs
    · exact ⟨h.bump, h.limit, h.reserved⟩
    · rw [Frames.bumpLoop_eq]
      exact h.contiguousLoop
  | allocContiguous count =>
    have hnext : s'.frames = (s.frames.allocContiguous count).2 := by
      cases hs
      rfl
    rw [hnext, Frames.allocContiguous]
    split_ifs
    · exact h
    · exact h.contiguousLoop
  | free frame =>
    rw [Pool.step] at hs
    split_ifs at hs
    cases hs
    exact ⟨h.bump, h.limit, h.reserved⟩
  | write frame page =>
    rw [Pool.step] at hs
    split_ifs at hs
    cases hs
    exact h

theorem low_init (regions : List Region) (ranges : List Range) :
    Low (2 ^ 64 - 2 * PAGE_SIZE) (Frames.init regions ranges).1 := by
  have hreserved : ∀ r ∈ recorded ranges, pageAlignUp r.2 ≤ 2 ^ 64 - 2 * PAGE_SIZE := by
    intro r hr
    obtain ⟨x, -, hx⟩ := List.mem_filterMap.mp hr
    split_ifs at hx
    cases hx
    have hfits := x.fits
    rw [Frames.pageAlignUp_of_dvd (dvd_pageAlignUp _)]
    unfold pageAlignUp
    unfold PAGE_SIZE at hfits ⊢
    omega
  rcases init_cases regions ranges with h | ⟨r, -, h⟩ <;> rw [h]
  · exact ⟨Nat.zero_le _, Nat.zero_le _, hreserved⟩
  · have hfits := r.fits
    refine ⟨?_, (Frames.pageAlignDown_le _).trans (by omega), hreserved⟩
    dsimp only
    unfold pageAlignUp
    unfold PAGE_SIZE at hfits ⊢
    omega

/-- `BUMP` stays so low that the sums of the allocator do not wrap around. -/
theorem bump_lt (h : Run.Reachable step Run.always (Starts regions ranges) s) :
    s.frames.bump + PAGE_SIZE < 2 ^ 64 := by
  have hlow : Low (2 ^ 64 - 2 * PAGE_SIZE) s.frames := by
    refine h.invariant (fun s => Low (2 ^ 64 - 2 * PAGE_SIZE) s.frames) (fun s hs => ?_)
      fun _ _ _ hlow _ hs => hlow.step hs
    have hframes : s.frames = (Frames.init regions ranges).1 := congrArg Prod.fst hs.1
    rw [hframes]
    exact low_init regions ranges
  have hbump := hlow.bump
  unfold PAGE_SIZE at hbump ⊢
  omega

theorem Inv.sound (hlen : ranges.length ≤ MAX_RESERVED) (h : Inv (Frames.init regions ranges).1 s) :
    Sound regions ranges s := by
  have hpaged : Frames.Paged s.frames.reserved := by
    rw [h.reserved]
    rcases init_cases regions ranges with hi | ⟨r, -, hi⟩ <;> rw [hi] <;>
    exact Frames.paged_recorded ranges
  refine ⟨h.once, fun f hf => usable_of_found hlen (h.found f (.inl hf)), fun f hf => ?_,
    fun count base hf j hj => ?_, fun fuel hfuel => ?_, fun count fuel hfuel => ?_,
    fun fuel hfuel => ?_⟩
  · have ha : s.frames.alloc s.mem = (some f, (s.frames.alloc s.mem).2) := Prod.ext hf rfl
    refine ⟨usable_of_found hlen ?_, fun hheld => (h.wf.alloc ha).2.2.1 (h.used f hheld)⟩
    rcases Frames.alloc_some h.wf.aligned ha with ⟨hhead, rfl, -⟩ | ⟨-, hfound, -⟩
    · obtain ⟨len, -, hfree⟩ := h.wf.freeFrames_cons hhead
      exact h.found _ (.inr (hfree ▸ List.mem_cons_self))
    · have hfirst := h.of_found hfound Nat.one_pos
      rwa [Nat.zero_mul, Nat.add_zero] at hfirst
  · have ha : s.frames.allocContiguous count = (some base, (s.frames.allocContiguous count).2) :=
      Prod.ext hf rfl
    have hfound := (Frames.allocContiguous_some h.wf.aligned ha).1
    exact ⟨usable_of_found hlen (h.of_found hfound hj), h.not_held hfound⟩
  · rw [Frames.bumpLoop_eq, Frames.bumpLoop_eq]
    exact Frames.contiguousLoop_enough (Nat.lt_succ_of_le s.frames.ahead_le) hfuel
  · exact Frames.contiguousLoop_enough (Nat.lt_succ_of_le s.frames.ahead_le) hfuel
  · obtain ⟨n, hn⟩ := h.wf.aligned
    rw [hn, Nat.mul_comm, Frames.countFrom_eq hpaged (by omega),
      Frames.countFrom_eq hpaged (by omega)]

end

/-- In every run of the allocator and its callers, every frame that is handed out lies in the
region, apart from every reserved range, and nobody else holds it. -/
theorem frames_sound {regions : List Region} {ranges : List Range} {s : Pool}
    (hlen : ranges.length ≤ MAX_RESERVED)
    (h : Run.Reachable step Run.always (Starts regions ranges) s) : Sound regions ranges s :=
  (inv_reachable h).sound hlen

/-- A region of eight frames, the third of which is reserved in part. -/
def eightFrames : Region := ⟨0x40000000, 0x8000, by decide⟩

def inThird : Range := ⟨0x40002010, 0x40002020, by decide⟩

theorem frames_sound_eightFrames : ∃ s, s.held = [0x40000000, 0x40003000, 0x40004000] ∧
    Sound [eightFrames] [inThird] s := by
  have hrun : (Run.exec step
      (afterInit [eightFrames] [inThird] fun _ => Vector.replicate _ 0)
      [.alloc, .free 0x40000000, .allocContiguous 2, .alloc]).map held =
        some [0x40000000, 0x40003000, 0x40004000] := by decide
  obtain ⟨s, hs, hheld⟩ := Option.map_eq_some_iff.mp hrun
  exact ⟨s, hheld, frames_sound (by decide) (Run.reachable_of_exec (starts_afterInit ..) hs)⟩

end Pool

end JungeyOs.Mm
