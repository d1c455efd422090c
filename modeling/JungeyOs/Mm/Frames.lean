import JungeyOs.Lib.Bytes
import Mathlib.Logic.Function.Basic
import Mathlib.Tactic.SplitIfs

/-!
# Physical frames

Models of `kernel/src/mm/frames.rs`: frames are handed out upward through one region,
around its reserved ranges, and freed frames form a list whose links are stored in the
frames themselves. A frame is named by its physical address, which is a multiple of
`PAGE_SIZE`, and memory gives each frame its page.

Results:
* `bumpLoop_enough`: the fuel of the allocation loop never runs out.
* `WF.alloc`, `WF.free`, `WF.write`: what the allocator and a write to a used frame keep.
-/

namespace JungeyOs.Mm

/-- `PAGE_SIZE` (`mm/mod.rs`, line 13). -/
def PAGE_SIZE : ℕ := 4096

theorem PAGE_SIZE_pos : 0 < PAGE_SIZE := by decide

/-- `page_align_up` (`mm/mod.rs`, lines 36–38). -/
def pageAlignUp (addr : ℕ) : ℕ := (addr + PAGE_SIZE - 1) / PAGE_SIZE * PAGE_SIZE

/-- `page_align_down` (`mm/mod.rs`, lines 41–43). -/
def pageAlignDown (addr : ℕ) : ℕ := addr / PAGE_SIZE * PAGE_SIZE

/-- The bytes of one frame. -/
abbrev Page := Vector UInt8 PAGE_SIZE

abbrev Memory := ℕ → Page

theorem le_pageAlignUp (addr : ℕ) : addr ≤ pageAlignUp addr := by
  unfold pageAlignUp PAGE_SIZE
  omega

theorem dvd_pageAlignUp (addr : ℕ) : PAGE_SIZE ∣ pageAlignUp addr := Nat.dvd_mul_left _ _

/-! ## The allocator -/

/-- The statics of `frames.rs` (lines 20–28). -/
structure Frames where
  bump : ℕ
  limit : ℕ
  reserved : List (ℕ × ℕ)
  freeList : ℕ
  freeListLen : ℕ

/-- The link stored in a free frame. -/
def link (mem : Memory) (frame : ℕ) : ℕ := Bytes.ofLE (Bytes.slice (mem frame) 0 8).toList

namespace Frames

/-- `blocked_until` (lines 36–42). -/
def blockedUntil (reserved : List (ℕ × ℕ)) (frame : ℕ) : Option ℕ :=
  (reserved.find? fun r => frame < r.2 && r.1 < frame + PAGE_SIZE).map Prod.snd

/-- The loop of `alloc` (lines 102–114). -/
def bumpLoop (fr : Frames) : ℕ → Option ℕ × Frames
  | 0 => (none, fr)
  | fuel + 1 =>
    let cur := fr.bump
    if cur = 0 ∨ fr.limit < cur + PAGE_SIZE then (none, fr)
    else match blockedUntil fr.reserved cur with
      | some skipTo => bumpLoop { fr with bump := pageAlignUp skipTo } fuel
      | none => (some cur, { fr with bump := cur + PAGE_SIZE })

/-- `alloc` (lines 91–115). -/
def alloc (fr : Frames) (mem : Memory) : Option ℕ × Frames :=
  let head := fr.freeList
  if head ≠ 0 then
    (some head, { fr with freeList := link mem head, freeListLen := fr.freeListLen - 1 })
  else fr.bumpLoop (fr.reserved.length + 1)

/-- `free` (lines 155–163). -/
def free (fr : Frames) (mem : Memory) (frame : ℕ) : Frames × Memory :=
  ({ fr with freeList := frame, freeListLen := fr.freeListLen + 1 },
    Function.update mem frame (Bytes.blit (mem frame) 0 (Bytes.leBytes 8 fr.freeList)))

/-- The `len` frames of the free list that starts at `head`. -/
def chain (mem : Memory) (head : ℕ) : ℕ → List ℕ
  | 0 => []
  | len + 1 => head :: chain mem (link mem head) len

/-- The frames of the free list. -/
def freeFrames (fr : Frames) (mem : Memory) : List ℕ := chain mem fr.freeList fr.freeListLen

/-! ## Fuel -/

/-- The reserved ranges that the allocator has not passed yet. -/
def ahead (fr : Frames) : ℕ := fr.reserved.countP fun r => fr.bump < r.2

theorem le_skip {fr : Frames} {skipTo : ℕ} (h : blockedUntil fr.reserved fr.bump = some skipTo) :
    fr.bump ≤ pageAlignUp skipTo := by
  obtain ⟨r, hr, rfl⟩ := Option.map_eq_some_iff.mp h
  have hlt := List.find?_some hr
  simp only [Bool.and_eq_true, decide_eq_true_eq] at hlt
  exact hlt.1.le.trans (le_pageAlignUp _)

/-- A range that `BUMP` passes is no longer ahead. -/
theorem ahead_lt {fr : Frames} {bump : ℕ}
    (hpassed : ∃ r ∈ fr.reserved, fr.bump < r.2 ∧ r.2 ≤ bump) :
    ({ fr with bump := bump } : Frames).ahead < fr.ahead := by
  obtain ⟨r, hr, hlt, hpast⟩ := hpassed
  unfold ahead
  dsimp only
  generalize fr.reserved = ranges at hr
  induction ranges with
  | nil => cases hr
  | cons x l ih =>
    have hmono : l.countP (fun q => decide (bump < q.2)) ≤ l.countP fun q => decide (fr.bump < q.2) :=
      List.countP_mono_left fun q _ hq => by
        simp only [decide_eq_true_eq] at hq ⊢
        omega
    rw [List.countP_cons, List.countP_cons]
    rcases List.mem_cons.mp hr with rfl | hr
    · rw [if_neg (by simpa using hpast), if_pos (by simpa using hlt)]
      omega
    · have := ih hr
      have hx : (if decide (bump < x.2) = true then 1 else 0) ≤
          if decide (fr.bump < x.2) = true then 1 else 0 := by
        simp only [decide_eq_true_eq]
        split_ifs <;> omega
      omega

theorem ahead_skip {fr : Frames} {skipTo : ℕ} (h : blockedUntil fr.reserved fr.bump = some skipTo) :
    ({ fr with bump := pageAlignUp skipTo } : Frames).ahead < fr.ahead := by
  obtain ⟨r, hr, rfl⟩ := Option.map_eq_some_iff.mp h
  have hlt := List.find?_some hr
  simp only [Bool.and_eq_true, decide_eq_true_eq] at hlt
  exact ahead_lt ⟨r, List.mem_of_find?_eq_some hr, hlt.1, le_pageAlignUp r.2⟩

/-- More fuel than ranges ahead gives the result of the loop. -/
theorem bumpLoop_enough {fuel : ℕ} : ∀ {fr : Frames}, fr.ahead < fuel →
    fr.bumpLoop (fuel + 1) = fr.bumpLoop fuel := by
  induction fuel with
  | zero => intro fr h; omega
  | succ fuel ih =>
    intro fr h
    rw [bumpLoop]
    conv_rhs => rw [bumpLoop]
    split_ifs
    · rfl
    · cases hb : blockedUntil fr.reserved fr.bump with
      | none => rfl
      | some skipTo =>
        have := ahead_skip hb
        exact ih (by omega)

/-! ## Used frames -/

theorem chain_congr {mem mem' : Memory} {len : ℕ} : ∀ {head : ℕ},
    (∀ f ∈ chain mem head len, mem' f = mem f) → chain mem' head len = chain mem head len := by
  induction len with
  | zero => intro head _; rfl
  | succ len ih =>
    intro head h
    have hhead : link mem' head = link mem head := by
      unfold link
      rw [h head List.mem_cons_self]
    rw [chain, chain, hhead, ih fun f hf => h f (List.mem_cons_of_mem _ hf)]

/-- The link past the frames of the list. -/
def tailLink (mem : Memory) (head : ℕ) : ℕ → ℕ
  | 0 => head
  | len + 1 => tailLink mem (link mem head) len

theorem tailLink_congr {mem mem' : Memory} {len : ℕ} : ∀ {head : ℕ},
    (∀ f ∈ chain mem head len, mem' f = mem f) → tailLink mem' head len = tailLink mem head len := by
  induction len with
  | zero => intro head _; rfl
  | succ len ih =>
    intro head h
    have hhead : link mem' head = link mem head := by
      unfold link
      rw [h head List.mem_cons_self]
    rw [tailLink, tailLink, hhead, ih fun f hf => h f (List.mem_cons_of_mem _ hf)]

/-- A frame that the allocator has handed out, now or before. -/
structure Given (fr : Frames) (f : ℕ) : Prop where
  pos : 0 < f
  lt_bump : f < fr.bump
  lt_limit : f < fr.limit
  aligned : PAGE_SIZE ∣ f

/-- A frame that was handed out and not freed since. -/
structure Used (fr : Frames) (mem : Memory) (f : ℕ) : Prop extends Given fr f where
  notFree : f ∉ fr.freeFrames mem

/-- The allocator is as it should be: the free list ends, and holds frames that were handed
out, each once. -/
structure WF (fr : Frames) (mem : Memory) : Prop where
  limit : fr.limit ≤ 2 ^ 64
  aligned : PAGE_SIZE ∣ fr.bump
  ends : tailLink mem fr.freeList fr.freeListLen = 0
  nodup : (fr.freeFrames mem).Nodup
  given : ∀ f ∈ fr.freeFrames mem, fr.Given f

section

variable {fr fr' : Frames} {mem mem' : Memory} {f g : ℕ}

theorem Given.lt (h : fr.Given f) (hwf : fr.WF mem) : f < 256 ^ 8 :=
  lt_of_lt_of_le h.lt_limit (hwf.limit.trans (by norm_num))

/-- A frame that is handed out from the region was not handed out before. -/
theorem bumpLoop_some {fuel : ℕ} : ∀ {fr fr' : Frames} {f : ℕ}, PAGE_SIZE ∣ fr.bump →
    fr.bumpLoop fuel = (some f, fr') →
    fr' = { fr with bump := f + PAGE_SIZE } ∧ fr.bump ≤ f ∧ 0 < f ∧ f < fr.limit ∧ PAGE_SIZE ∣ f := by
  induction fuel with
  | zero => intro fr fr' f _ h; cases h
  | succ fuel ih =>
    intro fr fr' f hdvd h
    rw [bumpLoop] at h
    split_ifs at h with hend
    · cases h
    split at h
    · rename_i skipTo hb
      obtain ⟨hfr, hle, hrest⟩ := ih (dvd_pageAlignUp _) h
      exact ⟨hfr, (le_skip hb).trans hle, hrest⟩
    · cases h
      have := PAGE_SIZE_pos
      exact ⟨rfl, le_rfl, by omega, by omega, hdvd⟩

theorem bumpLoop_none {fuel : ℕ} : ∀ {fr fr' : Frames}, PAGE_SIZE ∣ fr.bump →
    fr.bumpLoop fuel = (none, fr') →
    fr' = { fr with bump := fr'.bump } ∧ fr.bump ≤ fr'.bump ∧ PAGE_SIZE ∣ fr'.bump := by
  induction fuel with
  | zero => intro fr fr' hdvd h; cases h; exact ⟨rfl, le_rfl, hdvd⟩
  | succ fuel ih =>
    intro fr fr' hdvd h
    rw [bumpLoop] at h
    split_ifs at h with hend
    · cases h
      exact ⟨rfl, le_rfl, hdvd⟩
    split at h
    · rename_i skipTo hb
      obtain ⟨hfr, hle, hdvd'⟩ := ih (dvd_pageAlignUp _) h
      exact ⟨hfr, (le_skip hb).trans hle, hdvd'⟩
    · cases h

/-- More frames have been handed out from the region. -/
theorem WF.grow (h : fr.WF mem) {bump : ℕ} (hle : fr.bump ≤ bump) (hdvd : PAGE_SIZE ∣ bump) :
    ({ fr with bump := bump } : Frames).WF mem :=
  ⟨h.limit, hdvd, h.ends, h.nodup, fun f hf =>
    have := h.given f hf
    ⟨this.pos, this.lt_bump.trans_le hle, this.lt_limit, this.aligned⟩⟩

theorem Used.grow (h : fr.Used mem f) {bump : ℕ} (hle : fr.bump ≤ bump) :
    ({ fr with bump := bump } : Frames).Used mem f :=
  ⟨⟨h.pos, h.lt_bump.trans_le hle, h.lt_limit, h.aligned⟩, h.notFree⟩

/-- The head of a free list that is not empty was handed out before. -/
theorem WF.given_head (h : fr.WF mem) (hlen : fr.freeListLen ≠ 0) : fr.Given fr.freeList := by
  obtain ⟨len, hlen⟩ := Nat.exists_eq_succ_of_ne_zero hlen
  refine h.given fr.freeList ?_
  rw [freeFrames, hlen]
  exact List.mem_cons_self

/-- A free list with a head. -/
theorem WF.freeFrames_cons (h : fr.WF mem) (hhead : fr.freeList ≠ 0) :
    ∃ len, fr.freeListLen = len + 1 ∧
      fr.freeFrames mem = fr.freeList :: chain mem (link mem fr.freeList) len := by
  cases hlen : fr.freeListLen with
  | zero =>
    have := h.ends
    rw [hlen] at this
    exact absurd this hhead
  | succ len => exact ⟨len, rfl, by rw [freeFrames, hlen, chain]⟩

/-- What `alloc` hands out was not in use, and every other frame stays in use. -/
theorem WF.alloc (h : fr.WF mem) (ha : fr.alloc mem = (some f, fr')) :
    fr'.WF mem ∧ fr'.Used mem f ∧ ¬fr.Used mem f ∧ ∀ g, fr.Used mem g → fr'.Used mem g := by
  unfold Frames.alloc at ha
  dsimp only at ha
  split_ifs at ha with hhead
  · cases ha
    obtain ⟨len, hlen, hfree⟩ := h.freeFrames_cons hhead
    have hnodup := h.nodup
    rw [hfree, List.nodup_cons] at hnodup
    have hgiven := h.given
    rw [hfree] at hgiven
    have hends := h.ends
    rw [hlen, tailLink] at hends
    rw [hlen, Nat.add_sub_cancel]
    refine ⟨⟨h.limit, h.aligned, hends, hnodup.2, fun g hg => ?_⟩, ⟨?_, hnodup.1⟩, fun hu => ?_,
      fun g hg => ⟨⟨hg.pos, hg.lt_bump, hg.lt_limit, hg.aligned⟩, fun hmem => hg.notFree ?_⟩⟩
    · have := hgiven g (List.mem_cons_of_mem _ hg)
      exact ⟨this.pos, this.lt_bump, this.lt_limit, this.aligned⟩
    · have := hgiven _ List.mem_cons_self
      exact ⟨this.pos, this.lt_bump, this.lt_limit, this.aligned⟩
    · exact hu.notFree (hfree ▸ List.mem_cons_self)
    · exact hfree ▸ List.mem_cons_of_mem _ hmem
  · obtain ⟨rfl, hle, hpos, hlimit, hdvd⟩ := bumpLoop_some h.aligned ha
    have hpage : 0 < PAGE_SIZE := by decide
    have hfresh : f ∉ fr.freeFrames mem := fun hf => by
      have := (h.given f hf).lt_bump
      omega
    exact ⟨h.grow (by omega) (Nat.dvd_add hdvd (Nat.dvd_refl _)), ⟨⟨hpos, by simpa using hpage, hlimit, hdvd⟩, hfresh⟩,
      fun hu => by have := hu.lt_bump; omega, fun g hg => hg.grow (by omega)⟩

/-- An `alloc` that finds nothing. -/
theorem WF.alloc_none (h : fr.WF mem) (ha : fr.alloc mem = (none, fr')) :
    fr'.WF mem ∧ ∀ g, fr.Used mem g → fr'.Used mem g := by
  unfold Frames.alloc at ha
  dsimp only at ha
  split_ifs at ha with hhead
  · cases ha
  · obtain ⟨hfr, hle, hdvd⟩ := bumpLoop_none h.aligned ha
    rw [hfr]
    exact ⟨h.grow hle hdvd, fun g hg => hg.grow hle⟩

/-- The link words do not change. -/
theorem WF.congr (h : fr.WF mem) (mem' : Memory) (hmem : ∀ g ∈ fr.freeFrames mem, mem' g = mem g) :
    fr.WF mem' ∧ fr.freeFrames mem' = fr.freeFrames mem := by
  have hsame : fr.freeFrames mem' = fr.freeFrames mem := chain_congr hmem
  refine ⟨⟨h.limit, h.aligned, ?_, hsame ▸ h.nodup, hsame ▸ h.given⟩, hsame⟩
  rw [tailLink_congr hmem]
  exact h.ends

/-- A write to a frame that is in use. -/
theorem WF.write (h : fr.WF mem) (hf : fr.Used mem f) (page : Page) :
    fr.WF (Function.update mem f page) ∧
      ∀ g, fr.Used mem g → fr.Used (Function.update mem f page) g := by
  obtain ⟨hwf, hsame⟩ := h.congr (Function.update mem f page) fun g hg =>
    Function.update_of_ne (ne_of_mem_of_not_mem hg hf.notFree) _ _
  exact ⟨hwf, fun g hg => ⟨hg.toGiven, hsame ▸ hg.notFree⟩⟩

/-- The link of a freed frame. -/
theorem WF.link_free (h : fr.WF mem) (ha : fr.free mem f = (fr', mem')) :
    link mem' f = fr.freeList := by
  cases ha
  have hlt : fr.freeList < 256 ^ 8 := by
    by_cases hlen : fr.freeListLen = 0
    · have := h.ends
      rw [hlen, tailLink] at this
      omega
    · exact (h.given_head hlen).lt h
  rw [link, Function.update_self, Bytes.slice_blit_self _ _ _ (by decide), Bytes.ofLE_leBytes hlt]

/-- The other links do not change. -/
theorem WF.congr_free (h : fr.WF mem) (hf : fr.Used mem f) (ha : fr.free mem f = (fr', mem')) :
    fr.WF mem' ∧ fr.freeFrames mem' = fr.freeFrames mem := by
  cases ha
  exact h.congr _ fun g hg => Function.update_of_ne (ne_of_mem_of_not_mem hg hf.notFree) _ _

theorem WF.freeFrames_free (h : fr.WF mem) (hf : fr.Used mem f)
    (ha : fr.free mem f = (fr', mem')) : fr'.freeFrames mem' = f :: fr.freeFrames mem := by
  have hlink := h.link_free ha
  have hsame := (h.congr_free hf ha).2
  cases ha
  rw [freeFrames, chain, hlink, ← hsame, freeFrames]

/-- A freed frame joins the free list; every other frame stays in use. -/
theorem WF.free (h : fr.WF mem) (hf : fr.Used mem f) (ha : fr.free mem f = (fr', mem')) :
    fr'.WF mem' ∧ ¬fr'.Used mem' f ∧ (∀ g, g ≠ f → fr.Used mem g → fr'.Used mem' g) ∧
      ∀ g, g ≠ f → mem' g = mem g := by
  have hlink := h.link_free ha
  have hwf := (h.congr_free hf ha).1
  have hfree := h.freeFrames_free hf ha
  cases ha
  refine ⟨⟨h.limit, h.aligned, ?_, ?_, ?_⟩, fun hu => hu.notFree ?_, fun g hne hg => ⟨?_, ?_⟩,
    fun g hne => Function.update_of_ne hne _ _⟩
  · rw [tailLink, hlink]
    exact hwf.ends
  · rw [hfree, List.nodup_cons]
    exact ⟨hf.notFree, h.nodup⟩
  · intro g hg
    rw [hfree, List.mem_cons] at hg
    rcases hg with rfl | hg
    · exact ⟨hf.pos, hf.lt_bump, hf.lt_limit, hf.aligned⟩
    · have := h.given g hg
      exact ⟨this.pos, this.lt_bump, this.lt_limit, this.aligned⟩
  · rw [hfree]
    exact List.mem_cons_self
  · exact ⟨hg.pos, hg.lt_bump, hg.lt_limit, hg.aligned⟩
  · rw [hfree, List.mem_cons]
    rintro (rfl | hmem)
    · exact hne rfl
    · exact hg.notFree hmem

end

end Frames

end JungeyOs.Mm
