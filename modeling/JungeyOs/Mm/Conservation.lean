import JungeyOs.Mm.Pool

/-!
# No frame is lost

Whether `total_count` is `free_count` and the frames handed out, over every sequential run of the
allocator and its callers (`kernel/src/mm/frames.rs`). A frame is lost when `alloc_contiguous`
passes it on the way to a run, or to a failure, further up; and all of them are when the region
starts at address 0, which stands for no region.

Results:
* `contiguousLoop_avail`: what the search for a run takes and loses.
* `Kept.balanced_step`: a step keeps the balance exactly when it is sparing.
* `conserved_iff`: no frame is lost in a run exactly when every step of it is sparing.
-/

namespace JungeyOs.Mm

open Race (blockedRun run)

/-! ## When no frame is lost -/

/-- The first frame from `BUMP` on that is not reserved. -/
structure Frames.FirstFree (fr : Frames) (b : ℕ) : Prop where
  bump : fr.bump ≠ 0
  found : fr.Found 1 b
  first : ∀ f, fr.bump ≤ f → f < b → PAGE_SIZE ∣ f → Frames.blockedUntil fr.reserved f ≠ none

/-- A run of `count` frames fits at the first frame that is not reserved, or reaches past the end of
the region from there. -/
def Frames.Spares (fr : Frames) (count : ℕ) : Prop :=
  ∀ b, fr.FirstFree b → b + count * PAGE_SIZE ≤ fr.limit →
    ∀ j < count, Frames.blockedUntil fr.reserved (b + j * PAGE_SIZE) = none

namespace Pool

/-- Every frame is free or handed out, and `alloc` finds one unless all are handed out. -/
structure Conserved (s : Pool) : Prop where
  balance : s.total = s.frames.freeCount + s.held.length
  all_held : (s.frames.alloc s.mem).1 = none → s.held.length = s.total

/-- The run that is asked for does not reach from the first free frame into a reserved range. -/
def Sparing (s : Pool) : Act → Prop
  | .allocContiguous count => s.frames.Spares count
  | _ => True

end Pool

/-! ## The search for a run -/

namespace Frames

/-- The frames from `BUMP` on that are not reserved. -/
def avail (fr : Frames) : ℕ :=
  unreserved fr.reserved (fr.limit / PAGE_SIZE) - unreserved fr.reserved (fr.bump / PAGE_SIZE)

section

variable {fr fr' : Frames} {count fuel b : ℕ} {r : Option ℕ}

theorem freeCount_eq (fr : Frames) (hpaged : Paged fr.reserved) (hdvd : PAGE_SIZE ∣ fr.bump)
    (hpos : fr.bump ≠ 0) : fr.freeCount = fr.avail + fr.freeListLen := by
  obtain ⟨n, hn⟩ := hdvd
  have hcount := countFrom_eq hpaged
    (show fr.limit / PAGE_SIZE < n + (fr.limit / PAGE_SIZE + 1) by omega)
  have hdiv : fr.bump / PAGE_SIZE = n := by
    rw [hn, Nat.mul_div_cancel_left n (by decide)]
  rw [freeCount, if_neg hpos, hn, Nat.mul_comm, hcount, avail, hdiv]

theorem avail_mono (fr : Frames) {bump : ℕ} (hle : fr.bump ≤ bump) :
    ({ fr with bump := bump } : Frames).avail ≤ fr.avail :=
  Nat.sub_le_sub_left (unreserved_mono _ (Nat.div_le_div_right hle)) _

/-- `BUMP` passes reserved frames only. -/
theorem avail_skip {bump : ℕ} (hdvd : PAGE_SIZE ∣ fr.bump) (hdvd' : PAGE_SIZE ∣ bump)
    (hle : fr.bump ≤ bump)
    (h : ∀ f, fr.bump ≤ f → f < bump → PAGE_SIZE ∣ f → blockedUntil fr.reserved f ≠ none) :
    ({ fr with bump := bump } : Frames).avail = fr.avail := by
  obtain ⟨m, hm⟩ := hdvd
  obtain ⟨n, hn⟩ := hdvd'
  have hpage : 0 < PAGE_SIZE := by decide
  unfold avail
  dsimp only
  rw [hm, hn, Nat.mul_div_cancel_left _ hpage, Nat.mul_div_cancel_left _ hpage]
  rw [hm, hn] at hle h
  rw [unreserved_eq (Nat.le_of_mul_le_mul_left hle hpage)]
  intro k hmk hkn
  refine h (k * PAGE_SIZE) ?_ ?_ (Nat.dvd_mul_left ..)
  · rw [Nat.mul_comm k]
    exact Nat.mul_le_mul_left _ hmk
  · rw [Nat.mul_comm k]
    exact Nat.mul_lt_mul_of_pos_left hkn hpage

/-- A run of frames that are not reserved is taken from those that are available. -/
theorem avail_take (hdvd : PAGE_SIZE ∣ fr.bump) (hfits : fr.bump + count * PAGE_SIZE ≤ fr.limit)
    (h : ∀ j < count, blockedUntil fr.reserved (fr.bump + j * PAGE_SIZE) = none) :
    ({ fr with bump := fr.bump + count * PAGE_SIZE } : Frames).avail + count = fr.avail := by
  obtain ⟨n, hn⟩ := hdvd
  have hpage : 0 < PAGE_SIZE := by decide
  have hadd : fr.bump + count * PAGE_SIZE = PAGE_SIZE * (n + count) := by
    rw [hn]
    ring
  have hcount : ∀ c ≤ count, unreserved fr.reserved (n + c) = unreserved fr.reserved n + c := by
    intro c hc
    induction c with
    | zero => rfl
    | succ c ih =>
      have hfree := h c hc
      rw [hn, Nat.mul_comm PAGE_SIZE, ← Nat.add_mul] at hfree
      rw [← Nat.add_assoc, unreserved_succ, if_pos hfree, ih (by omega)]
      rfl
  have hle : unreserved fr.reserved (n + count) ≤ unreserved fr.reserved (fr.limit / PAGE_SIZE) := by
    refine unreserved_mono _ ((Nat.le_div_iff_mul_le hpage).mpr ?_)
    rw [Nat.mul_comm, ← hadd]
    exact hfits
  have hall := hcount count le_rfl
  unfold avail
  dsimp only
  rw [hadd, Nat.mul_div_cancel_left _ hpage, hn, Nat.mul_div_cancel_left _ hpage]
  omega

theorem avail_end (hdvd : PAGE_SIZE ∣ fr.bump) (hend : fr.limit < fr.bump + PAGE_SIZE) :
    fr.avail = 0 := by
  refine Nat.sub_eq_zero_of_le (unreserved_mono _ (div_le_iff.mpr ?_))
  rw [Nat.div_mul_cancel hdvd]
  exact hend

/-- The number of frames that a request gets. -/
def taken (r : Option ℕ) (count : ℕ) : ℕ := if r = none then 0 else count

theorem contiguousLoop_avail_le : ∀ {fr fr' : Frames}, PAGE_SIZE ∣ fr.bump →
    fr.contiguousLoop count fuel = (r, fr') → fr'.avail + taken r count ≤ fr.avail := by
  induction fuel with
  | zero =>
    intro fr fr' _ h
    cases h
    exact le_rfl
  | succ fuel ih =>
    intro fr fr' hdvd h
    rw [contiguousLoop] at h
    split_ifs at h with hend
    · cases h
      exact le_rfl
    · cases hb : blockedRun fr.reserved fr.bump 0 count with
      | some skipTo =>
        rw [hb] at h
        obtain ⟨x, -, rfl, hlt⟩ := lt_of_blockedRun hb
        exact (ih (dvd_pageAlignUp _) h).trans (avail_mono _ (hlt.le.trans (le_pageAlignUp _)))
      | none =>
        rw [hb] at h
        cases h
        have hrun := blockedRun_eq_none hb
        exact (avail_take hdvd (by omega) fun j hj => hrun j (Nat.zero_le j) (by omega)).le

/-- `BUMP` passes reserved frames only, so the first frame that is not reserved stays the same. -/
theorem spares_skip {bump : ℕ} (hpos : fr.bump ≠ 0) (hle : fr.bump ≤ bump)
    (h : ∀ f, fr.bump ≤ f → f < bump → PAGE_SIZE ∣ f → blockedUntil fr.reserved f ≠ none) :
    ({ fr with bump := bump } : Frames).Spares count ↔ fr.Spares count := by
  refine forall_congr' fun b => imp_congr_left ⟨fun hf => ?_, fun hf => ?_⟩
  · refine ⟨hpos, ⟨hf.found.pos, hf.found.aligned, hle.trans hf.found.from_bump, hf.found.fits,
      hf.found.unblocked⟩, fun f hfrom hto hdvd => ?_⟩
    by_cases hlt : f < bump
    · exact h f hfrom hlt hdvd
    · exact hf.first f (Nat.not_lt.mp hlt) hto hdvd
  · have hfree := hf.found.unblocked 0 Nat.one_pos
    rw [Nat.zero_mul, Nat.add_zero] at hfree
    have hafter : bump ≤ b := by
      by_contra hlt
      exact h b hf.found.from_bump (Nat.not_le.mp hlt) hf.found.aligned hfree
    have hpos' : bump ≠ 0 := by omega
    exact ⟨hpos', ⟨hf.found.pos, hf.found.aligned, hafter, hf.found.fits, hf.found.unblocked⟩,
      fun f hfrom => hf.first f (hle.trans hfrom)⟩

/-- The search loses no frame exactly when the request is sparing. -/
theorem contiguousLoop_avail (hcount : count ≠ 0) : ∀ {fr fr' : Frames}, Paged fr.reserved →
    PAGE_SIZE ∣ fr.bump → fr.ahead < fuel → fr.contiguousLoop count fuel = (r, fr') →
    (fr'.avail + taken r count = fr.avail ↔ fr.Spares count) := by
  induction fuel with
  | zero => intro fr fr' _ _ h; omega
  | succ fuel ih =>
    intro fr fr' hpaged hdvd hfuel h
    have hpage : 0 < PAGE_SIZE := by decide
    rw [contiguousLoop] at h
    split_ifs at h with hend
    · cases h
      refine iff_of_true rfl fun b hb hfits => ?_
      have hfrom := hb.found.from_bump
      have hpos := hb.bump
      omega
    · have hone : 1 * PAGE_SIZE ≤ count * PAGE_SIZE := Nat.mul_le_mul_right _ (by omega)
      cases hb : blockedRun fr.reserved fr.bump 0 count with
      | none =>
        rw [hb] at h
        cases h
        have hrun : ∀ j < count, blockedUntil fr.reserved (fr.bump + j * PAGE_SIZE) = none :=
          fun j hj => blockedRun_eq_none hb j (Nat.zero_le j) (by omega)
        refine iff_of_true (avail_take hdvd (by omega) hrun) fun b hb _ => ?_
        -- the first frame of the run is the first that is not reserved
        have hfirst : b = fr.bump := by
          refine le_antisymm (Nat.not_lt.mp fun hlt => ?_) hb.found.from_bump
          have hfree := hrun 0 (by omega)
          rw [Nat.zero_mul, Nat.add_zero] at hfree
          exact hb.first fr.bump le_rfl hlt hdvd hfree
        rw [hfirst]
        exact hrun
      | some skipTo =>
        rw [hb] at h
        dsimp only at h
        obtain ⟨x, hx, hskip, hlt⟩ := lt_of_blockedRun hb
        obtain ⟨j, -, hj, hblocked, hbefore⟩ := blockedRun_eq_some hb
        have hup := le_pageAlignUp skipTo
        cases j with
        | zero =>
          -- the run starts on a reserved frame, and the search goes on past its range
          rw [Nat.zero_mul, Nat.add_zero] at hblocked
          obtain ⟨hdvd', -, hrange⟩ := blocked_of_blocked hpaged hblocked hdvd
          rw [pageAlignUp_of_dvd hdvd'] at h
          have hahead : ({ fr with bump := skipTo } : Frames).ahead < fr.ahead := ahead_lt ⟨x, hx, by omega, hskip.le⟩
          have hpassed := fun f hfrom hto (_ : PAGE_SIZE ∣ f) => hrange f hfrom hto
          have hnext := @ih { fr with bump := skipTo } fr' hpaged hdvd' (by omega) h
          rwa [avail_skip hdvd hdvd' hlt.le hpassed, spares_skip (by omega) hlt.le hpassed] at hnext
        | succ j =>
          -- the first frame of the run is not reserved, and the search passes it
          have hfree := hbefore 0 le_rfl (Nat.succ_pos j)
          rw [Nat.zero_mul, Nat.add_zero] at hfree
          refine iff_of_false (fun hsame => ?_) fun hspares => ?_
          · obtain ⟨-, hpast, -⟩ := blocked_of_blocked hpaged hblocked
              (Nat.dvd_add hdvd (Nat.dvd_mul_left ..))
            rw [Nat.succ_mul] at hpast
            have hone' : fr.bump + 1 * PAGE_SIZE ≤ pageAlignUp skipTo := by omega
            have hle := contiguousLoop_avail_le (dvd_pageAlignUp _) h
            have hpassed := avail_mono { fr with bump := fr.bump + 1 * PAGE_SIZE } hone'
            have htake : ({ fr with bump := fr.bump + 1 * PAGE_SIZE } : Frames).avail + 1 = fr.avail :=
              avail_take hdvd (by omega) fun k hk => by
              obtain rfl : k = 0 := by omega
              rw [Nat.zero_mul, Nat.add_zero]
              exact hfree
            dsimp only at hpassed
            omega
          · have hfirst : fr.FirstFree fr.bump := by
              refine ⟨by omega, ⟨by omega, hdvd, le_rfl, by omega, fun k hk => ?_⟩,
                fun f hfrom hto => by omega⟩
              obtain rfl : k = 0 := by omega
              rw [Nat.zero_mul, Nat.add_zero]
              exact hfree
            have hnone := hspares fr.bump hfirst (by omega) (j + 1) (by omega)
            rw [hblocked] at hnone
            cases hnone

/-- With a step for every range ahead, a search that fails stops at the end of the region. -/
theorem contiguousLoop_end : ∀ {fr fr' : Frames}, fr.ahead < fuel →
    fr.contiguousLoop count fuel = (none, fr') →
    fr'.bump = 0 ∨ fr'.limit < fr'.bump + count * PAGE_SIZE := by
  induction fuel with
  | zero => intro fr fr' h; omega
  | succ fuel ih =>
    intro fr fr' hfuel h
    rw [contiguousLoop] at h
    split_ifs at h with hend
    · cases h
      exact hend
    · cases hb : blockedRun fr.reserved fr.bump 0 count with
      | none =>
        rw [hb] at h
        cases h
      | some skipTo =>
        rw [hb] at h
        obtain ⟨x, hx, rfl, hlt⟩ := lt_of_blockedRun hb
        have hup := le_pageAlignUp x.2
        have hahead : ({ fr with bump := pageAlignUp x.2 } : Frames).ahead < fr.ahead := ahead_lt ⟨x, hx, hlt, hup⟩
        exact ih (by omega) h

end

end Frames

/-! ## Every step -/

namespace Pool

section

variable {i : Frames} {s s' : Pool} {a : Act} {count f : ℕ}

/-- What every state keeps, whether frames are lost or not. -/
structure Kept (i : Frames) (s : Pool) : Prop extends Inv i s where
  paged : Frames.Paged s.frames.reserved
  starts : i.bump ≠ 0 ∨ s.total = 0

/-- Every frame is free or handed out. -/
def Balanced (s : Pool) : Prop := s.total = s.frames.freeCount + s.held.length

theorem Kept.freeListLen_eq_zero (h : Kept i s) (hempty : s.frames.bump = 0 ∨ s.frames.freeList = 0) :
    s.frames.freeListLen = 0 := by
  by_contra hlen
  have hhead := h.wf.given_head hlen
  have hpos := hhead.pos
  have hlt := hhead.lt_bump
  omega

/-- What a search for a run does to the balance. -/
theorem Kept.balanced_loop (h : Kept i s) (hb : Balanced s) {frames : Frames} {r : Option ℕ}
    (hcount : count ≠ 0)
    (ha : s.frames.contiguousLoop count (s.frames.reserved.length + 1) = (r, frames)) :
    s.total = frames.freeCount + (Frames.taken r count + s.held.length) ↔ s.frames.Spares count := by
  by_cases hzero : s.frames.bump = 0
  · rw [Frames.contiguousLoop, if_pos (.inl hzero)] at ha
    cases ha
    refine iff_of_true ?_ fun b hfirst => absurd hzero hfirst.bump
    rw [show Frames.taken none count = 0 from rfl, Nat.zero_add]
    exact hb
  · have havail := Frames.contiguousLoop_avail hcount h.paged h.wf.aligned
      (Nat.lt_succ_of_le s.frames.ahead_le) ha
    have hfree := Frames.freeCount_eq _ h.paged h.wf.aligned hzero
    -- the search moves `BUMP` only, and only up
    have hnext : frames = { s.frames with bump := frames.bump } ∧ s.frames.bump ≤ frames.bump ∧
        PAGE_SIZE ∣ frames.bump := by
      cases r with
      | none => exact Frames.contiguousLoop_none h.wf.aligned ha
      | some base =>
        obtain ⟨hfound, rfl⟩ := Frames.contiguousLoop_some h.wf.aligned ha
        exact ⟨rfl, hfound.from_bump.trans (Nat.le_add_right ..),
          Nat.dvd_add hfound.aligned (Nat.dvd_mul_left ..)⟩
    obtain ⟨hsame, hle, hdvd⟩ := hnext
    have hpaged : Frames.Paged frames.reserved := by
      rw [hsame]
      exact h.paged
    have hfree' := Frames.freeCount_eq _ hpaged hdvd (by omega)
    have hlen : frames.freeListLen = s.frames.freeListLen := by rw [hsame]
    unfold Balanced at hb
    rw [← havail]
    omega

theorem spares_one (fr : Frames) : fr.Spares 1 := fun _ hb _ => hb.found.unblocked

/-- If every frame is free or handed out, `alloc` finds one unless all are handed out. -/
theorem Kept.conserved_iff_balanced (h : Kept i s) : Conserved s ↔ Balanced s := by
  refine ⟨fun hc => hc.balance, fun hb => ⟨hb, fun hnone => ?_⟩⟩
  have ha : s.frames.alloc s.mem = (none, (s.frames.alloc s.mem).2) := Prod.ext hnone rfl
  have hhead : s.frames.freeList = 0 := by
    by_contra hne
    rw [Frames.alloc, if_pos hne] at ha
    cases ha
  have hlen := h.freeListLen_eq_zero (.inr hhead)
  suffices hzero : s.frames.freeCount = 0 by
    rw [hb, hzero, Nat.zero_add]
  by_cases hbump : s.frames.bump = 0
  · rw [Frames.freeCount, if_pos hbump, hlen]
  · rw [Frames.alloc, if_neg (not_not.mpr hhead), Frames.bumpLoop_eq] at ha
    have hahead := Nat.lt_succ_of_le s.frames.ahead_le
    have havail := (Frames.contiguousLoop_avail Nat.one_ne_zero h.paged h.wf.aligned hahead ha).mpr
      (spares_one _)
    have hend := Frames.contiguousLoop_end hahead ha
    obtain ⟨-, hle, hdvd⟩ := Frames.contiguousLoop_none h.wf.aligned ha
    have hpast := hend.resolve_left (by omega)
    rw [Nat.one_mul] at hpast
    rw [Frames.freeCount_eq _ h.paged h.wf.aligned hbump, hlen, ← havail, Frames.avail_end hdvd hpast]
    rfl

theorem length_run (base count : ℕ) : (run base count).length = count := by
  rw [run, List.length_map, List.length_range]

theorem Kept.balanced_alloc (h : Kept i s) (hb : Balanced s) (hs : step s .alloc = some s') :
    Balanced s' := by
  cases ha : s.frames.alloc s.mem with
  | mk r frames =>
    rw [step, ha] at hs
    cases hs
    by_cases hhead : s.frames.freeList = 0
    · rw [Frames.alloc, if_neg (not_not.mpr hhead), Frames.bumpLoop_eq] at ha
      have hloop := (h.balanced_loop hb Nat.one_ne_zero ha).mpr (spares_one _)
      have hlen : (r.toList ++ s.held).length = Frames.taken r 1 + s.held.length := by
        cases r with
        | none => rw [Frames.taken, if_pos rfl, Nat.zero_add]; rfl
        | some f => rw [Frames.taken, if_neg (Option.some_ne_none f), Nat.add_comm]; rfl
      unfold Balanced
      dsimp only
      rw [hlen]
      exact hloop
    · obtain ⟨len, hlen, -⟩ := h.wf.freeFrames_cons hhead
      have hbump : s.frames.bump ≠ 0 := fun hzero => by
        have := h.freeListLen_eq_zero (.inl hzero)
        omega
      rw [Frames.alloc, if_pos hhead] at ha
      cases ha
      have hfree := Frames.freeCount_eq _ h.paged h.wf.aligned hbump
      have hfree' := Frames.freeCount_eq { s.frames with
        freeList := link s.mem s.frames.freeList, freeListLen := s.frames.freeListLen - 1 }
        h.paged h.wf.aligned hbump
      unfold Balanced at hb ⊢
      dsimp only [Frames.avail, Option.toList_some, List.cons_append, List.nil_append,
        List.length_cons] at hfree hfree' ⊢
      omega

theorem Kept.balanced_contiguous (h : Kept i s) (hb : Balanced s)
    (hs : step s (.allocContiguous count) = some s') : Balanced s' ↔ s.frames.Spares count := by
  cases ha : s.frames.allocContiguous count with
  | mk r frames =>
    rw [step, ha] at hs
    cases hs
    rw [Frames.allocContiguous] at ha
    split_ifs at ha with hzero
    · cases ha
      exact iff_of_true hb fun b _ _ j hj => by omega
    · have hlen : ((r.toList.flatMap fun base => run base count) ++ s.held).length =
          Frames.taken r count + s.held.length := by
        rw [List.length_append]
        cases r with
        | none => rw [Frames.taken, if_pos rfl]; rfl
        | some base => rw [Frames.taken, if_neg (Option.some_ne_none base), Option.toList_some,
            List.flatMap_singleton, length_run]
      rw [← h.balanced_loop hb hzero ha, Balanced, hlen]

theorem Kept.balanced_free (h : Kept i s) (hb : Balanced s) (hs : step s (.free f) = some s') :
    Balanced s' := by
  rw [step] at hs
  split_ifs at hs with hheld
  cases hs
  have hbump : s.frames.bump ≠ 0 := fun hzero => by
    have := (h.used f hheld).lt_bump
    omega
  have hfree := Frames.freeCount_eq _ h.paged h.wf.aligned hbump
  have hfree' := Frames.freeCount_eq (s.frames.free s.mem f).1 h.paged h.wf.aligned hbump
  have hlen := List.length_erase_of_mem hheld
  have hpos := List.length_pos_of_mem hheld
  unfold Balanced at hb ⊢
  dsimp only [Frames.avail, Frames.free] at hfree hfree' ⊢
  omega

/-- A step keeps the balance exactly when it is sparing. -/
theorem Kept.balanced_step (h : Kept i s) (hb : Balanced s) (hs : step s a = some s') :
    Balanced s' ↔ Sparing s a := by
  cases a with
  | alloc => exact iff_of_true (h.balanced_alloc hb hs) trivial
  | allocContiguous count => exact h.balanced_contiguous hb hs
  | free f => exact iff_of_true (h.balanced_free hb hs) trivial
  | write f page =>
    rw [step] at hs
    split_ifs at hs
    cases hs
    exact iff_of_true hb trivial

theorem Kept.step (h : Kept i s) (hs : Pool.step s a = some s') : Kept i s' := by
  have hi := h.toInv.step hs
  have htotal : s'.total = s.total := by
    cases a with
    | alloc => cases hs; rfl
    | allocContiguous count => cases hs; rfl
    | free f =>
      rw [Pool.step] at hs
      split_ifs at hs
      cases hs
      rfl
    | write f page =>
      rw [Pool.step] at hs
      split_ifs at hs
      cases hs
      rfl
  refine ⟨hi, ?_, htotal ▸ h.starts⟩
  rw [hi.reserved, ← h.reserved]
  exact h.paged

end

/-! ## Every run -/

section

variable {regions : List Region} {ranges : List Range} {s : Pool}

theorem kept_start (hs : Starts regions ranges s) (h : s.frames.bump ≠ 0 ∨ s.total = 0) :
    Kept (Frames.init regions ranges).1 s := by
  have hi := inv_start hs
  refine ⟨hi, ?_, ?_⟩
  · rw [hi.reserved]
    rcases init_cases regions ranges with hinit | ⟨r, -, hinit⟩ <;> rw [hinit] <;>
    exact Frames.paged_recorded ranges
  · rw [← congrArg Frames.bump (congrArg Prod.fst hs.1)]
    exact h

/-- At the start every frame is free, unless the region starts at address 0. -/
theorem balanced_start (hs : Starts regions ranges s) :
    Balanced s ↔ s.frames.bump ≠ 0 ∨ s.total = 0 := by
  obtain ⟨hinit, hheld⟩ := hs
  obtain ⟨frames, total, mem, held⟩ := s
  dsimp only at hinit hheld ⊢
  subst hheld
  unfold Frames.init at hinit
  cases hr : biggest regions with
  | none =>
    rw [hr] at hinit
    cases hinit
    exact iff_of_true rfl (.inr rfl)
  | some r =>
    rw [hr] at hinit
    dsimp only at hinit
    split_ifs at hinit with hempty
    · cases hinit
      exact iff_of_true rfl (.inr rfl)
    · cases hinit
      unfold Balanced Frames.freeCount
      dsimp only
      by_cases hzero : pageAlignUp r.base = 0
      · rw [if_pos hzero, or_iff_right (not_not.mpr hzero)]
        rfl
      · rw [if_neg hzero]
        exact iff_of_true rfl (.inl hzero)

end

/-- In a run no frame is lost, at any time, exactly when the region does not start at address 0, or
has no frame, and no request for a run reaches from the first free frame into a reserved range. -/
theorem conserved_iff {regions : List Region} {ranges : List Range} {s : Pool}
    (hs : Starts regions ranges s) (acts : List Act) :
    Run.Throughout step Conserved s acts ↔
      (s.frames.bump ≠ 0 ∨ s.total = 0) ∧ Run.Meets step Sparing s acts := by
  by_cases hstart : s.frames.bump ≠ 0 ∨ s.total = 0
  · have hkept := kept_start hs hstart
    rw [and_iff_right hstart]
    refine Run.throughout_iff_meets (Kept (Frames.init regions ranges).1)
      (fun _ _ _ h _ hstep => h.step hstep) (fun s a s' h hc hstep => ?_) (fun s a _ hstep => ?_) hkept
      (hkept.conserved_iff_balanced.mpr ((balanced_start hs).mpr hstart)) acts
    · rw [(h.step hstep).conserved_iff_balanced]
      exact h.balanced_step hc.balance hstep
    · cases a with
      | allocContiguous count => cases hstep
      | _ => trivial
  · refine iff_of_false (fun h => hstart ?_) fun h => hstart h.1
    exact (balanced_start hs).mp h.start.balance

/-- The frames of the region, where a run of two frames fits. -/
theorem conserved_iff_twoFrames : Run.Throughout step Conserved
    (afterInit [eightFrames] [inThird] fun _ => Vector.replicate _ 0) [.allocContiguous 2, .alloc] := by
  refine (conserved_iff (starts_afterInit ..) _).mpr ⟨.inl (by decide), fun b hb _ j hj => ?_,
    fun _ _ => ⟨trivial, fun _ _ => trivial⟩⟩
  have hfirst : b = 0x40000000 := by
    refine le_antisymm (Nat.not_lt.mp fun hlt => ?_) hb.found.from_bump
    exact hb.first 0x40000000 le_rfl hlt (by decide) (by decide)
  subst hfirst
  revert j
  decide

/-- A request for three frames passes the two in front of the reserved one. -/
theorem threeFrames_lost : ∃ s, Run.exec step
    (afterInit [eightFrames] [inThird] fun _ => Vector.replicate _ 0) [.allocContiguous 3] = some s ∧
      s.held.length = 3 ∧ s.frames.freeCount = 2 ∧ s.total = 7 ∧ ¬Conserved s := by
  refine ⟨_, rfl, by decide, by decide, by decide, fun h => ?_⟩
  have hbalance := h.balance
  revert hbalance
  decide

end Pool

end JungeyOs.Mm
