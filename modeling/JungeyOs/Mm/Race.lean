import JungeyOs.Lib.Linked
import JungeyOs.Lib.Run
import JungeyOs.Mm.Frames
import Mathlib.Data.List.Nodup

/-!
# The frame allocator on several cores

Models of `alloc`, `alloc_contiguous` and `free` (`kernel/src/mm/frames.rs`, lines 92–162)
with each load and each store as a step of its own. Any number of callers are in the
allocator at once, and whoever holds a frame writes what it likes to it. `END` and the
reserved ranges do not change after `init`.

Results:
* `alloc_alone`: a call that runs alone does what the allocator of `Mm.Frames` does.
* `inv_step`: the invariant is kept by every step that is not overtaken.
* `sound_of_notOvertaken`: as long as no call stores after another call has changed what it
  loaded, no frame is held twice and every freed frame is on the free list.
-/

namespace JungeyOs.Mm.Race

open Frames (blockedUntil)
open Linked (Chain Reaches)

/-! ## The system -/

/-- The loop of `alloc_contiguous` over the frames of a run (lines 137–142), from frame `i` on:
the end of the first reserved range in the way. -/
def blockedRun (reserved : List (ℕ × ℕ)) (cur : ℕ) : (i count : ℕ) → Option ℕ
  | _, 0 => none
  | i, count + 1 =>
    match blockedUntil reserved (cur + i * PAGE_SIZE) with
    | some skipTo => some skipTo
    | none => blockedRun reserved cur (i + 1) count

/-- The frames of the run that starts at `cur`. -/
def run (cur count : ℕ) : List ℕ := (List.range count).map fun i => cur + i * PAGE_SIZE

/-- Where a caller stands: the next load or store of its call. -/
inductive Pc
  | idle
  /-- `alloc` loads `FREE_LIST` (line 96) -/
  | loadHead
  /-- reads the link of the head (line 98) -/
  | readLink (head : ℕ)
  /-- stores the link to `FREE_LIST` and returns the head (lines 99–101) -/
  | storeNext (head next : ℕ)
  /-- loads `BUMP` (lines 106 and 132) for `count` frames -/
  | loadBump (count : ℕ)
  /-- stores to `BUMP` (lines 110–116 and 144–150) -/
  | storeBump (count cur : ℕ)
  /-- `free` loads `FREE_LIST` (line 158) -/
  | loadFree (frame : ℕ)
  /-- writes the link of the frame (line 159) -/
  | writeLink (frame head : ℕ)
  /-- stores the frame to `FREE_LIST` (line 160) -/
  | storeHead (frame head : ℕ)
  deriving DecidableEq

/-- The frame that a call of `free` is giving back. -/
def Pc.freeing : Pc → Option ℕ
  | .loadFree frame => some frame
  | .writeLink frame _ => some frame
  | .storeHead frame _ => some frame
  | _ => none

/-- `held` are the frames that were handed out and not passed to `free` since; `freed` are
those that were freed and not handed out since. -/
structure Sys where
  bump : ℕ
  limit : ℕ
  reserved : List (ℕ × ℕ)
  freeList : ℕ
  links : ℕ → ℕ
  pc : ℕ → Pc
  held : List ℕ
  freed : List ℕ

/-- `step` is the next load or store of a caller; `write` is a holder's write to the first
word of its frame. -/
inductive Act
  | alloc (k : ℕ)
  | allocContiguous (k count : ℕ)
  | free (k frame : ℕ)
  | write (frame word : ℕ)
  | step (k : ℕ)
  deriving DecidableEq

namespace Sys

def goto (s : Sys) (k : ℕ) (pc : Pc) : Sys := { s with pc := Function.update s.pc k pc }

/-- The next load or store of caller `k`. -/
def advance (s : Sys) (k : ℕ) : Pc → Option Sys
  | .idle => none
  | .loadHead =>
    some (s.goto k (if s.freeList ≠ 0 then .readLink s.freeList else .loadBump 1))
  | .readLink head => some (s.goto k (.storeNext head (s.links head)))
  | .storeNext head next => some
    { s.goto k .idle with
      freeList := next, held := head :: s.held, freed := s.freed.erase head }
  | .loadBump count => some (s.goto k
    (if s.bump = 0 ∨ s.limit < s.bump + count * PAGE_SIZE then .idle
    else .storeBump count s.bump))
  | .storeBump count cur =>
    match blockedRun s.reserved cur 0 count with
    | some skipTo => some { s.goto k (.loadBump count) with bump := pageAlignUp skipTo }
    | none => some
      { s.goto k .idle with
        bump := cur + count * PAGE_SIZE, held := run cur count ++ s.held }
  | .loadFree frame => some (s.goto k (.writeLink frame s.freeList))
  | .writeLink frame head => some
    { s.goto k (.storeHead frame head) with links := Function.update s.links frame head }
  | .storeHead frame _ => some
    { s.goto k .idle with freeList := frame, freed := frame :: s.freed }

/-- A frame is freed by its holder, whichever caller that is by now. -/
def step (s : Sys) : Act → Option Sys
  | .alloc k => if s.pc k = .idle then some (s.goto k .loadHead) else none
  | .allocContiguous k count =>
    if s.pc k = .idle then some (s.goto k (if count = 0 then .idle else .loadBump count)) else none
  | .free k frame =>
    if s.pc k = .idle ∧ frame ∈ s.held then
      some { s.goto k (.loadFree frame) with held := s.held.erase frame }
    else none
  | .write frame word =>
    if frame ∈ s.held then some { s with links := Function.update s.links frame word } else none
  | .step k => s.advance k (s.pc k)

/-- After `init` (lines 49–89). -/
def start (bump limit : ℕ) (reserved : List (ℕ × ℕ)) (links : ℕ → ℕ) : Sys :=
  { bump, limit, reserved, freeList := 0, links, pc := fun _ => .idle, held := [], freed := [] }

end Sys

/-- The allocator after its initialisation, whatever the memory holds. -/
def Initial (s : Sys) : Prop := ∃ bump limit reserved links, s = Sys.start bump limit reserved links

/-- No frame is held twice, and no freed frame is lost. -/
structure Sound (s : Sys) : Prop where
  once : s.held.Nodup
  kept : ∀ frame ∈ s.freed, Reaches 0 s.links s.freeList frame

/-- The caller stores while the words that it loaded are as it loaded them; where it only skips
a reserved range, `BUMP` does not go back. -/
def Pc.Current (s : Sys) : Pc → Prop
  | .storeNext head next => s.freeList = head ∧ s.links head = next
  | .storeHead _ head => s.freeList = head
  | .storeBump count cur =>
    match blockedRun s.reserved cur 0 count with
    | some skipTo => s.bump ≤ pageAlignUp skipTo
    | none => s.bump = cur
  | _ => True

/-- The step is no store of a call that another one has overtaken. -/
def NotOvertaken (s : Sys) : Act → Prop
  | .step k => (s.pc k).Current s
  | _ => True

/-! ## The invariant -/

/-- What a call in progress relies on. -/
def Pc.Valid (s : Sys) : Pc → Prop
  | .readLink head => head ≠ 0
  | .storeNext head _ => head ≠ 0
  | .storeBump _ cur => cur ≠ 0
  | .storeHead frame head => s.links frame = head
  | _ => True

/-- The frames that were handed out: those that are held, and those on the free list. -/
def Sys.owned (s : Sys) : List ℕ := s.freed ++ s.held

structure Inv (s : Sys) : Prop where
  chain : Chain 0 s.links s.freeList s.freed
  once : s.owned.Nodup
  below : ∀ frame ∈ s.owned, frame ≠ 0 ∧ frame < s.bump
  valid : ∀ k, (s.pc k).Valid s
  freeing : ∀ k frame, (s.pc k).freeing = some frame →
    frame ∉ s.owned ∧ frame ≠ 0 ∧ frame < s.bump
  apart : ∀ j k frame, (s.pc j).freeing = some frame → (s.pc k).freeing = some frame → j = k

theorem inv_start (bump limit : ℕ) (reserved : List (ℕ × ℕ)) (links : ℕ → ℕ) :
    Inv (Sys.start bump limit reserved links) :=
  ⟨rfl, List.nodup_nil, nofun, fun _ => trivial, nofun, nofun⟩

theorem Inv.sound {s : Sys} (h : Inv s) : Sound s :=
  ⟨(List.nodup_append.mp h.once).2.1, fun _ hf => h.chain.reaches_iff.mpr hf⟩

section

variable {s s' : Sys} {a : Act} {k : ℕ} {p : Pc}

/-- What a step has to keep, where caller `k` goes to `p`. -/
theorem Inv.move (h : Inv s) (hpc : s'.pc = Function.update s.pc k p)
    (hchain : Chain 0 s'.links s'.freeList s'.freed) (honce : s'.owned.Nodup)
    (hbelow : ∀ frame ∈ s'.owned, frame ≠ 0 ∧ frame < s'.bump) (hbump : s.bump ≤ s'.bump)
    (hvalid : p.Valid s')
    (hothers : ∀ j frame, j ≠ k → (s.pc j).freeing = some frame →
      frame ∉ s'.owned ∧ s'.links frame = s.links frame)
    (hfreeing : ∀ frame, p.freeing = some frame → frame ∉ s'.owned ∧ frame ≠ 0 ∧ frame < s'.bump ∧
      ∀ j, j ≠ k → (s.pc j).freeing ≠ some frame) : Inv s' := by
  refine ⟨hchain, honce, hbelow, ?_, ?_, ?_⟩
  · rw [hpc]
    refine (Function.forall_update_iff s.pc fun _ q => q.Valid s').mpr ⟨hvalid, fun j hj => ?_⟩
    have hv := h.valid j
    cases hq : s.pc j with
    | storeHead frame head =>
      rw [hq] at hv
      have hlink := (hothers j frame hj (by rw [hq]; rfl)).2
      exact hlink.trans hv
    | _ =>
      rw [hq] at hv
      exact hv
  · rw [hpc]
    refine (Function.forall_update_iff s.pc fun _ q => ∀ frame, q.freeing = some frame →
      frame ∉ s'.owned ∧ frame ≠ 0 ∧ frame < s'.bump).mpr ⟨fun frame hf => ?_, fun j hj frame hf => ?_⟩
    · obtain ⟨hout, hpos, hlt, -⟩ := hfreeing frame hf
      exact ⟨hout, hpos, hlt⟩
    · obtain ⟨-, hpos, hlt⟩ := h.freeing j frame hf
      exact ⟨(hothers j frame hj hf).1, hpos, hlt.trans_le hbump⟩
  · intro i j frame hi hj
    rw [hpc] at hi hj
    by_cases hik : i = k
    · subst hik
      rw [Function.update_self] at hi
      by_contra hij
      rw [Function.update_of_ne (Ne.symm hij)] at hj
      exact (hfreeing frame hi).2.2.2 j (Ne.symm hij) hj
    · rw [Function.update_of_ne hik] at hi
      by_cases hjk : j = k
      · subst hjk
        rw [Function.update_self] at hj
        exact absurd hi ((hfreeing frame hj).2.2.2 i hik)
      · rw [Function.update_of_ne hjk] at hj
        exact h.apart i j frame hi hj

/-- A load: the caller goes on, and nothing else changes. -/
theorem Inv.goto (h : Inv s) (hvalid : p.Valid s)
    (hfreeing : p.freeing = none ∨ p.freeing = (s.pc k).freeing) : Inv (s.goto k p) := by
  refine h.move (p := p) rfl h.chain h.once h.below le_rfl ?_
    (fun j frame _ hf => ⟨(h.freeing j frame hf).1, rfl⟩) fun frame hf => ?_
  · cases p <;> exact hvalid
  · rcases hfreeing with hnone | hsame
    · rw [hnone] at hf
      cases hf
    · rw [hsame] at hf
      obtain ⟨hout, hpos, hlt⟩ := h.freeing k frame hf
      exact ⟨hout, hpos, hlt, fun j hj hj' => hj (h.apart j k frame hj' hf)⟩

/-- `alloc` takes the head off the free list. -/
theorem Inv.storeNext (h : Inv s) {head next : ℕ} (hk : s.pc k = .storeNext head next)
    (hcur : s.freeList = head ∧ s.links head = next) :
    Inv { s.goto k .idle with
      freeList := next, held := head :: s.held, freed := s.freed.erase head } := by
  obtain ⟨rfl, rfl⟩ := hcur
  have hpos : s.freeList ≠ 0 := by
    have hv := h.valid k
    rwa [hk] at hv
  obtain ⟨rest, hfreed, hrest⟩ := h.chain.pop hpos
  have herase : s.freed.erase s.freeList = rest := by
    rw [hfreed, List.erase_cons_head]
  -- the frame goes from one list to the other
  have hperm : (rest ++ s.freeList :: s.held).Perm s.owned := by
    rw [Sys.owned, hfreed]
    exact List.perm_middle
  rw [herase]
  refine h.move (p := .idle) (k := k) rfl hrest (hperm.nodup_iff.mpr h.once)
    (fun frame hf => h.below frame (hperm.mem_iff.mp hf)) le_rfl trivial
    (fun j frame _ hf => ⟨fun hmem => (h.freeing j frame hf).1 (hperm.mem_iff.mp hmem), rfl⟩) nofun

theorem mem_run {cur count frame : ℕ} (hf : frame ∈ run cur count) :
    cur ≤ frame ∧ frame < cur + count * PAGE_SIZE := by
  obtain ⟨i, hi, rfl⟩ := List.mem_map.mp hf
  have hlt : i < count := List.mem_range.mp hi
  have hpage := PAGE_SIZE_pos
  have hmul : i * PAGE_SIZE < count * PAGE_SIZE := Nat.mul_lt_mul_of_pos_right hlt hpage
  omega

theorem nodup_run (cur count : ℕ) : (run cur count).Nodup := by
  refine List.Nodup.map (fun i j hij => ?_) List.nodup_range
  have hpage := PAGE_SIZE_pos
  exact Nat.eq_of_mul_eq_mul_right hpage (Nat.add_left_cancel hij)

/-- A call takes a run of frames from the region. -/
theorem Inv.take (h : Inv s) {count : ℕ} (hpos : s.bump ≠ 0) :
    Inv { s.goto k .idle with
      bump := s.bump + count * PAGE_SIZE, held := run s.bump count ++ s.held } := by
  have hle : s.bump ≤ s.bump + count * PAGE_SIZE := Nat.le_add_right _ _
  have hperm : (s.freed ++ (run s.bump count ++ s.held)).Perm (run s.bump count ++ s.owned) := by
    rw [Sys.owned, ← List.append_assoc, ← List.append_assoc]
    exact List.perm_append_comm.append_right _
  -- the frames of the run are at and above `BUMP`, all others are below it
  have hnew : ∀ frame ∈ run s.bump count, frame ∉ s.owned := by
    intro frame hf howned
    exact absurd (h.below frame howned).2 (Nat.not_lt.mpr (mem_run hf).1)
  refine h.move (p := .idle) (k := k) rfl h.chain ?_ ?_ hle trivial ?_ nofun
  · refine hperm.nodup_iff.mpr (List.nodup_append.mpr ⟨nodup_run _ _, h.once, ?_⟩)
    rintro frame hf other hother rfl
    exact hnew frame hf hother
  · intro frame hf
    rcases List.mem_append.mp (hperm.mem_iff.mp hf) with hf | hf
    · obtain ⟨hfrom, hto⟩ := mem_run hf
      exact ⟨by omega, hto⟩
    · exact ⟨(h.below frame hf).1, (h.below frame hf).2.trans_le hle⟩
  · intro j frame _ hf
    refine ⟨fun hmem => ?_, rfl⟩
    obtain ⟨hout, -, hlt⟩ := h.freeing j frame hf
    rcases List.mem_append.mp (hperm.mem_iff.mp hmem) with hmem | hmem
    · exact absurd hlt (Nat.not_lt.mpr (mem_run hmem).1)
    · exact hout hmem

/-- A call passes a reserved range. -/
theorem Inv.skip (h : Inv s) {count bump : ℕ} (hle : s.bump ≤ bump) :
    Inv { s.goto k (.loadBump count) with bump := bump } :=
  h.move (p := .loadBump count) (k := k) rfl h.chain h.once
    (fun frame hf => ⟨(h.below frame hf).1, (h.below frame hf).2.trans_le hle⟩) hle trivial
    (fun j frame _ hf => ⟨(h.freeing j frame hf).1, rfl⟩) nofun

/-- `free` links its frame to the free list. -/
theorem Inv.writeLink (h : Inv s) {frame head : ℕ} (hk : s.pc k = .writeLink frame head) :
    Inv { s.goto k (.storeHead frame head) with
      links := Function.update s.links frame head } := by
  have hfreeing : (s.pc k).freeing = some frame := by rw [hk]; rfl
  obtain ⟨hout, hpos, hlt⟩ := h.freeing k frame hfreeing
  refine h.move (p := .storeHead frame head) (k := k) rfl
    (h.chain.update (fun hmem => hout (List.mem_append_left _ hmem)) head) h.once h.below le_rfl
    (Function.update_self ..) (fun j other hj hf => ⟨(h.freeing j other hf).1, ?_⟩) fun other hf => ?_
  · refine Function.update_of_ne ?_ _ _
    rintro rfl
    exact hj (h.apart j k other hf hfreeing)
  · obtain rfl := Option.some.inj hf
    exact ⟨hout, hpos, hlt, fun j hj hj' => hj (h.apart j k frame hj' hfreeing)⟩

/-- `free` puts its frame in front of the free list. -/
theorem Inv.storeHead (h : Inv s) {frame head : ℕ} (hk : s.pc k = .storeHead frame head)
    (hcur : s.freeList = head) :
    Inv { s.goto k .idle with freeList := frame, freed := frame :: s.freed } := by
  have hfreeing : (s.pc k).freeing = some frame := by rw [hk]; rfl
  obtain ⟨hout, hpos, hlt⟩ := h.freeing k frame hfreeing
  have hlink : s.links frame = s.freeList := by
    have hv := h.valid k
    rw [hk] at hv
    exact hv.trans hcur.symm
  refine h.move (p := .idle) (k := k) rfl (h.chain.push hpos hlink)
    (List.nodup_cons.mpr ⟨hout, h.once⟩) (fun other hf => ?_) le_rfl trivial
    (fun j other hj hf => ⟨fun hmem => ?_, rfl⟩) nofun
  · rcases List.mem_cons.mp hf with rfl | hf
    · exact ⟨hpos, hlt⟩
    · exact h.below other hf
  · rcases List.mem_cons.mp hmem with rfl | hmem
    · exact hj (h.apart j k other hf hfreeing)
    · exact (h.freeing j other hf).1 hmem

/-- A holder passes its frame to `free`. -/
theorem Inv.free (h : Inv s) {frame : ℕ} (hf : frame ∈ s.held) :
    Inv { s.goto k (.loadFree frame) with held := s.held.erase frame } := by
  have hmem : frame ∈ s.owned := List.mem_append_right _ hf
  have hnodup := List.nodup_append.mp h.once
  have hsub : (s.freed ++ s.held.erase frame).Sublist s.owned :=
    (List.Sublist.refl _).append List.erase_sublist
  refine h.move (p := .loadFree frame) (k := k) rfl h.chain (h.once.sublist hsub)
    (fun other hother => h.below other (hsub.subset hother)) le_rfl trivial
    (fun j other _ hother => ⟨fun hin => (h.freeing j other hother).1 (hsub.subset hin), rfl⟩)
    fun other hother => ?_
  obtain rfl := Option.some.inj hother
  refine ⟨fun hin => ?_, (h.below frame hmem).1, (h.below frame hmem).2,
    fun j _ hj => (h.freeing j frame hj).1 hmem⟩
  rcases List.mem_append.mp hin with hin | hin
  · exact hnodup.2.2 frame hin frame hf rfl
  · exact (List.Nodup.mem_erase_iff hnodup.2.1).mp hin |>.1 rfl

/-- A holder writes to its frame. -/
theorem Inv.write (h : Inv s) {frame : ℕ} (hf : frame ∈ s.held) (word : ℕ) :
    Inv { s with links := Function.update s.links frame word } := by
  have hmem : frame ∈ s.owned := List.mem_append_right _ hf
  have hother : ∀ j other, (s.pc j).freeing = some other →
      Function.update s.links frame word other = s.links other := by
    intro j other hj
    refine Function.update_of_ne ?_ _ _
    rintro rfl
    exact (h.freeing j other hj).1 hmem
  refine ⟨h.chain.update (fun hin => ?_) word, h.once, h.below, fun j => ?_, h.freeing, h.apart⟩
  · exact (List.nodup_append.mp h.once).2.2 frame hin frame hf rfl
  · have hv := h.valid j
    show (s.pc j).Valid _
    cases hq : s.pc j with
    | storeHead other head =>
      rw [hq] at hv
      exact (hother j other (by rw [hq]; rfl)).trans hv
    | _ =>
      rw [hq] at hv
      exact hv

/-- Every load, and every store that no other call has overtaken. -/
theorem inv_advance (h : Inv s) (hcur : (s.pc k).Current s)
    (hs : s.advance k (s.pc k) = some s') : Inv s' := by
  cases hk : s.pc k with
  | idle =>
    rw [hk] at hs
    cases hs
  | loadHead =>
    rw [hk] at hs
    cases hs
    by_cases hhead : s.freeList = 0
    · rw [if_neg (not_not.mpr hhead)]
      exact h.goto trivial (.inl rfl)
    · rw [if_pos hhead]
      exact h.goto hhead (.inl rfl)
  | readLink head =>
    have hv := h.valid k
    rw [hk] at hs hv
    cases hs
    exact h.goto hv (.inl rfl)
  | storeNext head next =>
    rw [hk] at hs hcur
    cases hs
    exact h.storeNext hk hcur
  | loadBump count =>
    rw [hk] at hs
    cases hs
    by_cases hend : s.bump = 0 ∨ s.limit < s.bump + count * PAGE_SIZE
    · rw [if_pos hend]
      exact h.goto trivial (.inl rfl)
    · rw [if_neg hend]
      exact h.goto (fun hzero => hend (.inl hzero)) (.inl rfl)
  | storeBump count cur =>
    have hv := h.valid k
    rw [hk] at hs hcur hv
    simp only [Sys.advance] at hs
    cases hb : blockedRun s.reserved cur 0 count with
    | some skipTo =>
      simp only [Pc.Current, hb] at hs hcur
      cases hs
      exact h.skip hcur
    | none =>
      simp only [Pc.Current, hb] at hs hcur
      cases hs
      subst hcur
      exact h.take hv
  | loadFree frame =>
    have hfreeing : (s.pc k).freeing = some frame := by rw [hk]; rfl
    rw [hk] at hs
    cases hs
    exact h.goto trivial (.inr hfreeing.symm)
  | writeLink frame head =>
    rw [hk] at hs
    cases hs
    exact h.writeLink hk
  | storeHead frame head =>
    rw [hk] at hs hcur
    cases hs
    exact h.storeHead hk hcur

theorem inv_step (h : Inv s) (hcur : NotOvertaken s a) (hs : s.step a = some s') : Inv s' := by
  cases a with
  | alloc k =>
    obtain ⟨-, hs⟩ := Option.ite_none_right_eq_some.mp hs
    cases hs
    exact h.goto trivial (.inl rfl)
  | allocContiguous k count =>
    obtain ⟨-, hs⟩ := Option.ite_none_right_eq_some.mp hs
    cases hs
    by_cases hcount : count = 0
    · rw [if_pos hcount]
      exact h.goto trivial (.inl rfl)
    · rw [if_neg hcount]
      exact h.goto trivial (.inl rfl)
  | free k frame =>
    obtain ⟨⟨-, hf⟩, hs⟩ := Option.ite_none_right_eq_some.mp hs
    cases hs
    exact h.free hf
  | write frame word =>
    obtain ⟨hf, hs⟩ := Option.ite_none_right_eq_some.mp hs
    cases hs
    exact h.write hf word
  | step k => exact inv_advance h hcur hs

end

/-! ## Calls that run alone -/

/-- The statics of the allocator. -/
def Sys.frames (s : Sys) : Frames :=
  { bump := s.bump, limit := s.limit, reserved := s.reserved, freeList := s.freeList
    freeListLen := s.freed.length }

/-- Caller `k` gets from `s` to `t` on its own. -/
inductive Alone (k : ℕ) : Sys → Sys → Prop
  | refl (s : Sys) : Alone k s s
  | step {s u t : Sys} : s.advance k (s.pc k) = some u → Alone k u t → Alone k s t

/-- The call of `k` has returned: `fr` are the statics afterwards, and `handed` is what it was
given. -/
structure Returned (s t : Sys) (k : ℕ) (fr : Frames) (handed : Option ℕ) : Prop where
  pc : t.pc = Function.update s.pc k .idle
  frames : t.frames = fr
  links : t.links = s.links
  held : t.held = handed.toList ++ s.held

section

variable {s t u : Sys} {k : ℕ}

theorem blockedRun_one (reserved : List (ℕ × ℕ)) (cur : ℕ) :
    blockedRun reserved cur 0 1 = blockedUntil reserved cur := by
  simp only [blockedRun, Nat.zero_mul, Nat.add_zero]
  cases blockedUntil reserved cur <;> rfl

@[simp]
theorem goto_pc (s : Sys) (k : ℕ) (p : Pc) : (s.goto k p).pc k = p := Function.update_self ..

/-- A call that starts over from another state of the region. -/
theorem Returned.trans {fr : Frames} {handed : Option ℕ} {p : Pc} (h : Returned u t k fr handed)
    (hpc : u.pc = Function.update s.pc k p) (hlinks : u.links = s.links) (hheld : u.held = s.held) :
    Returned s t k fr handed :=
  ⟨by rw [h.pc, hpc, Function.update_idem], h.frames, h.links.trans hlinks,
    by rw [h.held, hheld]⟩

/-- The loop over the region. -/
theorem bump_alone {fuel : ℕ} : ∀ {s : Sys}, s.frames.ahead < fuel → s.pc k = .loadBump 1 →
    ∃ t, Alone k s t ∧
      Returned s t k (s.frames.bumpLoop fuel).2 (s.frames.bumpLoop fuel).1 := by
  induction fuel with
  | zero => exact fun h _ => absurd h (Nat.not_lt_zero _)
  | succ fuel ih =>
    intro s hfuel hk
    rw [Frames.bumpLoop]
    by_cases hend : s.bump = 0 ∨ s.limit < s.bump + PAGE_SIZE
    · have hload : s.advance k (s.pc k) = some (s.goto k .idle) := by
        rw [hk, Sys.advance, Nat.one_mul, if_pos hend]
      refine ⟨s.goto k .idle, .step hload (.refl _), ?_⟩
      have hend' : s.frames.bump = 0 ∨ s.frames.limit < s.frames.bump + PAGE_SIZE := hend
      rw [if_pos hend']
      exact ⟨rfl, rfl, rfl, rfl⟩
    · have hload : s.advance k (s.pc k) = some (s.goto k (.storeBump 1 s.bump)) := by
        rw [hk, Sys.advance, Nat.one_mul, if_neg hend]
      have hend' : ¬(s.frames.bump = 0 ∨ s.frames.limit < s.frames.bump + PAGE_SIZE) := hend
      rw [if_neg hend']
      cases hb : blockedUntil s.frames.reserved s.frames.bump with
      | some skipTo =>
        have hb' : blockedRun s.reserved s.bump 0 1 = some skipTo := (blockedRun_one _ _).trans hb
        have hstore : (s.goto k (.storeBump 1 s.bump)).advance k
            ((s.goto k (.storeBump 1 s.bump)).pc k) =
            some { (s.goto k (.storeBump 1 s.bump)).goto k (.loadBump 1) with
              bump := pageAlignUp skipTo } := by
          rw [goto_pc, Sys.advance]
          simp only [Sys.goto, hb']
        have hahead := Frames.ahead_skip hb
        obtain ⟨t, hrun, hret⟩ := ih (s := { (s.goto k (.storeBump 1 s.bump)).goto k (.loadBump 1) with
          bump := pageAlignUp skipTo }) (by exact Nat.lt_of_lt_of_le hahead (Nat.le_of_lt_succ hfuel))
          (Function.update_self ..)
        exact ⟨t, .step hload (.step hstore hrun),
          hret.trans (p := .loadBump 1) (Function.update_idem ..) rfl rfl⟩
      | none =>
        have hb' : blockedRun s.reserved s.bump 0 1 = none := (blockedRun_one _ _).trans hb
        have hstore : (s.goto k (.storeBump 1 s.bump)).advance k
            ((s.goto k (.storeBump 1 s.bump)).pc k) =
            some { (s.goto k (.storeBump 1 s.bump)).goto k .idle with
              bump := s.bump + 1 * PAGE_SIZE, held := run s.bump 1 ++ s.held } := by
          rw [goto_pc, Sys.advance]
          simp only [Sys.goto, hb']
        refine ⟨_, .step hload (.step hstore (.refl _)), ?_⟩
        refine ⟨Function.update_idem .., ?_, rfl, rfl⟩
        simp only [Sys.frames, Nat.one_mul]
        rfl

/-- A call of `alloc` that runs alone does what `Frames.alloc` does. -/
theorem alloc_alone (h : Inv s) (hk : s.pc k = .loadHead) {mem : Memory}
    (hmem : ∀ frame, s.links frame = link mem frame) :
    ∃ t, Alone k s t ∧ Returned s t k (s.frames.alloc mem).2 (s.frames.alloc mem).1 := by
  unfold Frames.alloc
  dsimp only
  by_cases hhead : s.freeList = 0
  · have hload : s.advance k (s.pc k) = some (s.goto k (.loadBump 1)) := by
      rw [hk, Sys.advance, if_neg (not_not.mpr hhead)]
    have hhead' : ¬s.frames.freeList ≠ 0 := not_not.mpr hhead
    rw [if_neg hhead']
    have hahead : (s.goto k (.loadBump 1)).frames.ahead < s.frames.reserved.length + 1 :=
      Nat.lt_succ_of_le List.countP_le_length
    obtain ⟨t, hrun, hret⟩ := bump_alone hahead (goto_pc ..)
    exact ⟨t, .step hload hrun, hret.trans (p := .loadBump 1) rfl rfl rfl⟩
  · obtain ⟨rest, hfreed, -⟩ := h.chain.pop hhead
    have hhead' : s.frames.freeList ≠ 0 := hhead
    rw [if_pos hhead']
    -- it loads the head, reads its link, and stores the link
    have hload : s.advance k (s.pc k) = some (s.goto k (.readLink s.freeList)) := by
      rw [hk, Sys.advance, if_pos hhead]
    have hread : (s.goto k (.readLink s.freeList)).advance k
        ((s.goto k (.readLink s.freeList)).pc k) =
        some ((s.goto k (.readLink s.freeList)).goto k
          (.storeNext s.freeList (s.links s.freeList))) := by
      rw [goto_pc]
      rfl
    refine ⟨_, .step hload (.step hread (.step ?_ (.refl { s.goto k .idle with
      freeList := s.links s.freeList, held := s.freeList :: s.held
      freed := s.freed.erase s.freeList }))), rfl, ?_, rfl, rfl⟩
    · rw [goto_pc, Sys.advance]
      simp only [Sys.goto, Function.update_idem]
    · simp only [Sys.frames, Sys.goto, hfreed, List.erase_cons_head, List.length_cons,
        Nat.add_sub_cancel, hmem]

end

/-- In every run in which no call stores after another one has changed what it loaded, no frame
is held twice and every freed frame is on the free list. -/
theorem sound_of_notOvertaken :
    ∀ s, Run.Reachable Sys.step NotOvertaken Initial s → Sound s := by
  intro s hs
  refine (hs.invariant Inv ?_ fun s a s' h hok hstep => inv_step h hok hstep).sound
  rintro s ⟨bump, limit, reserved, links, rfl⟩
  exact inv_start bump limit reserved links

/-- Two callers take frames of the region; the second loads `BUMP` after the store of the
first. -/
def twoTakes : List Act :=
  [.alloc 0, .alloc 1, .step 0, .step 1, .step 0, .step 0, .step 1, .step 1]

theorem sound_of_notOvertaken_twoTakes :
    ∃ t, Run.exec Sys.step (Sys.start 4096 65536 [] fun _ => 0) twoTakes = some t ∧
      t.held = [8192, 4096] ∧ Sound t := by
  have hmeets : Run.Meets Sys.step NotOvertaken (Sys.start 4096 65536 [] fun _ => 0) twoTakes :=
    .cons rfl trivial <| .cons rfl trivial <| .cons rfl trivial <| .cons rfl trivial <|
      .cons rfl trivial <| .cons rfl rfl <| .cons rfl trivial <| .cons rfl rfl trivial
  exact ⟨_, rfl, rfl, sound_of_notOvertaken _
    ((Run.Reachable.start ⟨4096, 65536, [], fun _ => 0, rfl⟩).exec hmeets rfl)⟩

/-- Two callers load the same head and both return it. -/
def twoPops : List Act :=
  [.alloc 0, .step 0, .step 0, .step 0, .free 0 4096, .step 0, .step 0, .step 0,
    .alloc 0, .alloc 1, .step 0, .step 1, .step 0, .step 1, .step 0, .step 1]

/-- Two callers put their frames in front of the same empty list. -/
def twoPushes : List Act :=
  [.alloc 0, .step 0, .step 0, .step 0, .alloc 1, .step 1, .step 1, .step 1,
    .free 0 4096, .free 1 8192, .step 0, .step 1, .step 0, .step 1, .step 0, .step 1]

theorem overtaken_unsound :
    (∃ t, Run.exec Sys.step (Sys.start 4096 65536 [] fun _ => 0) twoPops = some t ∧
        t.held = [4096, 4096] ∧ ¬Sound t) ∧
      ∃ t, Run.exec Sys.step (Sys.start 4096 65536 [] fun _ => 0) twoPushes = some t ∧
        4096 ∈ t.freed ∧ ¬Reaches 0 t.links t.freeList 4096 := by
  refine ⟨⟨_, rfl, rfl, fun h => ?_⟩, ⟨_, rfl, by decide, fun h => ?_⟩⟩
  · exact absurd h.once (by decide)
  · have hchain : Chain 0 (Function.update (Function.update (fun _ => 0) 4096 0) 8192 0) 8192 [8192] :=
      ⟨rfl, by decide, rfl⟩
    exact absurd (hchain.reaches_iff.mp h) (by decide)

end JungeyOs.Mm.Race
