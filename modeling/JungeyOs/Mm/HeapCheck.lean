import JungeyOs.Mm.HeapTotal

/-!
# The check of the kernel heap

Model of `check` (`kernel/src/mm/heap.rs`, lines 174–227), which walks the free list and stops at the
first block that is not as it should be. The build has no overflow checks, so the end of a block
wraps around at the end of the address space. Whether an address can be loaded from is not modelled.

Results:
* `check_iff`: on a list whose blocks are as an allocator leaves them, the check reports an error
  exactly when one of them is not within one region, or there are too many.
* `wellFormed_of_check`: a list on which no error is reported is sorted, its blocks are aligned, do not
  overlap and lie within the regions.
-/

namespace JungeyOs.Mm

open Blocks (Apart Within Covers)

/-- `HeapCheck` (lines 174–179). -/
structure HeapCheck where
  blocks : ℕ
  freeBytes : ℕ
  error : Option String
  pos : ℕ
deriving DecidableEq, Repr

/-- The most blocks that `check` accepts (line 220). -/
def MAX_BLOCKS : ℕ := 1000000

namespace Heap

/-- What is wrong with the block at `addr`, if the one in front of it ends at `lastEnd`
(lines 196–215). -/
def fault (h : Heap) (addr lastEnd : ℕ) : Option String :=
  if addr % MIN_ALIGN ≠ 0 then some "block is misaligned"
  else if addr < lastEnd then some "free list is not sorted, or blocks overlap"
  else if h.mem addr < BLOCK_SIZE ∨ h.total < h.mem addr then some "block size is impossible"
  else if h.regions.any fun r => r.1 ≤ addr ∧ (addr + h.mem addr) % 2 ^ 64 ≤ r.2 then none
  else some "block lies outside every donated region"

/-- The loop of `check` (lines 192–225). -/
def checkFrom (h : Heap) : (fuel cur lastEnd : ℕ) → HeapCheck → HeapCheck
  | 0, _, _, out => out
  | fuel + 1, cur, lastEnd, out =>
    if cur = 0 then out
    else match h.fault cur lastEnd with
      | some e => { out with error := some e, pos := cur }
      | none =>
        let out : HeapCheck :=
          { blocks := out.blocks + 1, freeBytes := out.freeBytes + h.mem cur, error := out.error, pos := cur }
        if MAX_BLOCKS < out.blocks then { out with error := some "free list has a cycle" }
        else checkFrom h fuel (h.mem (cur + 8)) ((cur + h.mem cur) % 2 ^ 64) out

/-- `check` (lines 187–227). -/
def check (h : Heap) : HeapCheck := h.checkFrom STEPS h.head 0 ⟨0, 0, none, 0⟩

/-- The free list ends, its blocks are sorted and do not overlap, and they are aligned and lie within
the regions. -/
structure WellFormed (h : Heap) : Prop where
  ends : Linked.Path h.link 0 (h.freeList.map Prod.fst) 0
  sorted : h.freeList.Pairwise fun b c => b.1 + b.2 ≤ c.1
  aligned : ∀ b ∈ h.freeList, MIN_ALIGN ∣ b.1
  within : ∀ b ∈ h.freeList, Within h.regions b

section

variable {h : Heap} {l : List (ℕ × ℕ)} {addr lastEnd p : ℕ} {out : HeapCheck}

/-- A block that does not wrap around has no fault exactly when it is aligned, behind the one in
front of it, of a possible size, and within a region. -/
theorem fault_eq_none (hwrap : h.mem addr ≤ h.total → addr + h.mem addr < 2 ^ 64) :
    h.fault addr lastEnd = none ↔ MIN_ALIGN ∣ addr ∧ lastEnd ≤ addr ∧
      (BLOCK_SIZE ≤ h.mem addr ∧ h.mem addr ≤ h.total) ∧ Within h.regions (addr, h.mem addr) := by
  rw [fault]
  split_ifs with halign hsorted hsize hregion
  · exact iff_of_false (by simp) fun hn => halign (Nat.mod_eq_zero_of_dvd hn.1)
  · exact iff_of_false (by simp) fun hn => by omega
  · exact iff_of_false (by simp) fun hn => by omega
  all_goals
    have hfits := hwrap (by omega)
    simp only [Nat.mod_eq_of_lt hfits, List.any_eq_true, decide_eq_true_eq] at hregion
  · refine iff_of_true rfl ⟨Nat.dvd_of_mod_eq_zero (by omega), by omega, by omega, hregion⟩
  · exact iff_of_false (by simp) fun hn => hregion hn.2.2.2

/-- The check of a list whose blocks are aligned, sorted and of possible sizes. -/
theorem checkFrom_iff {fuel : ℕ} : ∀ {l : List (ℕ × ℕ)} {p lastEnd : ℕ} {out : HeapCheck},
    Linked.Path h.link p (l.map Prod.fst) 0 →
    (∀ b ∈ l, 0 < b.1 ∧ h.mem b.1 = b.2 ∧ MIN_ALIGN ∣ b.1 ∧ BLOCK_SIZE ≤ b.2 ∧ b.2 ≤ h.total ∧
      b.1 + b.2 < 2 ^ 64) →
    Apart l → (∀ b ∈ l, lastEnd ≤ b.1) → out.error = none → out.blocks ≤ MAX_BLOCKS →
    l.length < fuel →
    ((h.checkFrom fuel (h.link p) lastEnd out).error = none ↔
      (∀ b ∈ l, Within h.regions b) ∧ out.blocks + l.length ≤ MAX_BLOCKS) := by
  induction fuel with
  | zero => intro l p lastEnd out _ _ _ _ _ _ hlen; omega
  | succ fuel ih =>
    intro l p lastEnd out hpath hblocks hapart hlast herror hcount hlen
    rw [checkFrom]
    cases l with
    | nil =>
      have hend : h.link p = 0 := hpath
      rw [if_pos hend]
      exact iff_of_true herror ⟨by simp, hcount⟩
    | cons b l =>
      obtain ⟨hb, hrest⟩ := hpath
      obtain ⟨hpos, hmem, halign, hbig, hle, hfits⟩ := hblocks b List.mem_cons_self
      have hnext : h.mem (b.1 + 8) = h.link b.1 := (if_neg hpos.ne').symm
      rw [hb, if_neg hpos.ne']
      have hfault : h.fault b.1 lastEnd = none ↔ Within h.regions b := by
        rw [fault_eq_none fun _ => by rw [hmem]; exact hfits, hmem]
        have := hlast b List.mem_cons_self
        tauto
      by_cases hin : Within h.regions b
      · rw [hfault.mpr hin]
        dsimp only
        rw [List.length_cons, List.forall_mem_cons, and_iff_right hin]
        by_cases hmany : MAX_BLOCKS < out.blocks + 1
        · rw [if_pos hmany]
          exact iff_of_false (by simp) fun hn => by omega
        · rw [if_neg hmany, hmem, Nat.mod_eq_of_lt hfits, hnext]
          obtain ⟨hafter, hl⟩ := List.pairwise_cons.mp hapart
          refine Iff.trans (ih hrest (fun c hc => hblocks c (.tail _ hc)) hl
            (fun c hc => (hafter c hc).le) herror ?_ (Nat.lt_of_succ_lt_succ hlen)) ?_
          · exact Nat.not_lt.mp hmany
          · rw [Nat.add_assoc, Nat.add_comm 1]
      · obtain ⟨e, he⟩ := Option.ne_none_iff_exists'.mp (mt hfault.mp hin)
        rw [he]
        exact iff_of_false (by simp) fun hn => hin (hn.1 b List.mem_cons_self)

/-- The check of a free list whose blocks are aligned, sorted and of possible sizes: no error is
reported exactly when each block is within a region, and there are not too many. -/
theorem check_iff (hl : Lists h l) (hapart : Apart l) (hlen : l.length < STEPS)
    (hblocks : ∀ b ∈ l, 0 < b.1 ∧ MIN_ALIGN ∣ b.1 ∧ BLOCK_SIZE ≤ b.2 ∧ b.2 ≤ h.total ∧
      b.1 + b.2 < 2 ^ 64) :
    h.check.error = none ↔ (∀ b ∈ l, Within h.regions b) ∧ l.length ≤ MAX_BLOCKS := by
  have hcheck : (h.checkFrom STEPS (h.link 0) 0 ⟨0, 0, none, 0⟩).error = none ↔
      (∀ b ∈ l, Within h.regions b) ∧ 0 + l.length ≤ MAX_BLOCKS :=
    checkFrom_iff hl.path (fun b hb => ⟨(hblocks b hb).1, hl.sizes b hb, (hblocks b hb).2⟩) hapart
      (fun b _ => Nat.zero_le b.1) rfl (Nat.zero_le _) hlen
  rwa [Nat.zero_add] at hcheck

/-- What a check says that has come to the end of the list. -/
theorem checkFrom_sound {fuel : ℕ} : ∀ {p lastEnd : ℕ} {out : HeapCheck},
    (∀ b ∈ h.walk fuel (h.link p), b.2 ≤ h.total → b.1 + b.2 < 2 ^ 64) →
    out.blocks ≤ MAX_BLOCKS → MAX_BLOCKS < fuel + out.blocks →
    (h.checkFrom fuel (h.link p) lastEnd out).error = none →
    ∃ l : List (ℕ × ℕ), Linked.Path h.link p (l.map Prod.fst) 0 ∧ out.blocks + l.length ≤ MAX_BLOCKS ∧
      (l.Pairwise fun b c => b.1 + b.2 ≤ c.1) ∧
      ∀ b ∈ l, (0 < b.1 ∧ h.mem b.1 = b.2) ∧ lastEnd ≤ b.1 ∧ MIN_ALIGN ∣ b.1 ∧ Within h.regions b := by
  induction fuel with
  | zero => intro p lastEnd out _ hle hlt; omega
  | succ fuel ih =>
    intro p lastEnd out hwrap hle hlt hnone
    rw [checkFrom] at hnone
    rw [walk] at hwrap
    by_cases hend : h.link p = 0
    · exact ⟨[], hend, by simpa using hle, List.Pairwise.nil, by simp⟩
    · rw [if_neg hend] at hnone hwrap
      cases hfault : h.fault (h.link p) lastEnd with
      | some e =>
        rw [hfault] at hnone
        cases hnone
      | none =>
        rw [hfault] at hnone
        have hnext : h.mem (h.link p + 8) = h.link (h.link p) := (if_neg hend).symm
        obtain ⟨hfirst, hwrap⟩ := List.forall_mem_cons.mp hwrap
        obtain ⟨halign, hlast, hsize, hin⟩ := (fault_eq_none hfirst).mp hfault
        dsimp only at hnone
        split_ifs at hnone with hmany
        rw [Nat.mod_eq_of_lt (hfirst hsize.2), hnext] at hnone
        rw [hnext] at hwrap
        obtain ⟨l, hpath, hlen, hsorted, hl⟩ := ih hwrap (by dsimp only; omega) (by dsimp only; omega) hnone
        refine ⟨(h.link p, h.mem (h.link p)) :: l, ⟨rfl, hpath⟩, ?_,
          List.pairwise_cons.mpr ⟨fun c hc => (hl c hc).2.1, hsorted⟩,
          List.forall_mem_cons.mpr ⟨⟨⟨Nat.pos_of_ne_zero hend, rfl⟩, hlast, halign, hin⟩, fun c hc => ?_⟩⟩
        · rw [List.length_cons]
          dsimp only at hlen
          omega
        · obtain ⟨hc, hbehind, hrest⟩ := hl c hc
          exact ⟨hc, by omega, hrest⟩

/-- A list on which no error is reported is well formed, if no block of a possible size runs past the
end of the address space. -/
theorem wellFormed_of_check (hwrap : ∀ b ∈ h.freeList, b.2 ≤ h.total → b.1 + b.2 < 2 ^ 64)
    (hnone : h.check.error = none) : h.WellFormed := by
  obtain ⟨l, hpath, hlen, hsorted, hl⟩ := checkFrom_sound (p := 0) hwrap (Nat.zero_le _)
    (by decide) hnone
  have hlist : h.freeList = l := by
    refine walk_eq (p := 0) hpath (fun b hb => (hl b hb).1) ?_
    have hsteps : MAX_BLOCKS < STEPS := by decide
    dsimp only at hlen
    omega
  exact ⟨hlist ▸ hpath, hlist ▸ hsorted, fun b hb => (hl b (hlist ▸ hb)).2.2.1,
    fun b hb => (hl b (hlist ▸ hb)).2.2.2⟩

end

end Heap

end JungeyOs.Mm
