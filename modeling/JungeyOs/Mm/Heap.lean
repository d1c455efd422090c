import JungeyOs.Lib.Blocks
import JungeyOs.Lib.Linked
import JungeyOs.Lib.Run
import JungeyOs.Mm.Frames
import Mathlib.Data.Nat.Basic
import Mathlib.Data.List.Nodup
import Mathlib.Order.Basic

/-!
# The kernel heap

Models of `Heap` (`kernel/src/mm/heap.rs`, lines 17–144): a first-fit allocator whose free blocks
hold their size and the address of the next one in their first two words. Memory is given by its
words; addresses do not wrap around (`Heap.frontPad_add_lt`).

Results:
* `Heap.insert_spec`: a block is put in its place and joined with the blocks that it touches.
* `Heap.allocFrom_spec`: what an allocation takes from the free list.
* `HeapUse.heap_sound`: the free list stays sorted and joined, and live allocations are apart from it and
  from each other.
-/

namespace JungeyOs.Mm

/-! ## The model -/

/-- The size of a free block's header (line 24). -/
def BLOCK_SIZE : ℕ := 16

/-- Its alignment (line 25). -/
def MIN_ALIGN : ℕ := 8

/-- `MAX_REGIONS` (line 28). -/
def MAX_REGIONS : ℕ := 4

/-- `align_up` (lines 142–144). -/
def alignUp (v align : ℕ) : ℕ := (v + align - 1) / align * align

/-- The layout of an allocation: `align` is a power of two, and no size rounded up to it overflows. -/
structure Layout where
  size : ℕ
  align : ℕ
  pow : ∃ k, align = 2 ^ k
  fits : size + align ≤ 2 ^ 63
  deriving DecidableEq

/-- The bytes that an allocation takes (lines 93 and 135). -/
def Layout.need (layout : Layout) : ℕ := alignUp (max layout.size BLOCK_SIZE) MIN_ALIGN

/-- `Heap` (lines 30–37) and the words of memory. -/
structure Heap where
  head : ℕ
  total : ℕ
  allocated : ℕ
  regions : List (ℕ × ℕ)
  mem : ℕ → ℕ

/-- More steps than a list of blocks in 64 bits of address space has. -/
def STEPS : ℕ := 2 ^ 64

namespace Heap

def write (h : Heap) (addr v : ℕ) : Heap := { h with mem := Function.update h.mem addr v }

/-- The link to the next block: that of block `p`, or the head if `p` is null. -/
def link (h : Heap) (p : ℕ) : ℕ := if p = 0 then h.head else h.mem (p + 8)

/-- `new` (lines 43–45), whatever the memory holds. -/
def new (mem : ℕ → ℕ) : Heap := { head := 0, total := 0, allocated := 0, regions := [], mem := mem }

/-- Set that link (lines 74–78 and 111–115). -/
def setLink (h : Heap) (p v : ℕ) : Heap := if p = 0 then { h with head := v } else h.write (p + 8) v

/-- The loop of `insert` (lines 66–71). -/
def seek (h : Heap) (block : ℕ) : (fuel prev cur : ℕ) → Option (ℕ × ℕ)
  | 0, _, _ => none
  | fuel + 1, prev, cur =>
    if cur ≠ 0 ∧ cur < block then seek h block fuel cur (h.mem (cur + 8)) else some (prev, cur)

/-- Block `a` takes over the size and the link of block `b` (lines 82–83 and 86–87). -/
def absorb (h : Heap) (a b : ℕ) : Heap :=
  let h := h.write a (h.mem a + h.mem b)
  h.write (a + 8) (h.mem (b + 8))

/-- `insert` (lines 62–89); `none` if its loop does not end. -/
def insert (h : Heap) (block size : ℕ) : Option Heap :=
  let h := (h.write block size).write (block + 8) 0
  (h.seek block STEPS 0 h.head).map fun (prev, cur) =>
    let h := (h.write (block + 8) cur).setLink prev block
    let h := if cur ≠ 0 ∧ block + size = cur then h.absorb block cur else h
    if prev ≠ 0 ∧ prev + h.mem prev = block then h.absorb prev block else h

/-- `add_region` (lines 48–59). -/
def addRegion (h : Heap) (start size : ℕ) : Option Heap :=
  let start := alignUp start MIN_ALIGN
  if size < BLOCK_SIZE then some h
  else
    let h := { h with
      total := h.total + size
      regions := if h.regions.length < MAX_REGIONS then h.regions ++ [(start, start + size)]
        else h.regions }
    h.insert start size

/-- The part of a block that is left over goes back to the list (lines 117–122). -/
def putBack (h : Heap) (block size : ℕ) : Option Heap :=
  if BLOCK_SIZE ≤ size then h.insert block size else some h

/-- The loop of `alloc` (lines 98–130): the address, which is null if nothing fits. -/
def allocFrom (align size : ℕ) : (fuel prev cur : ℕ) → Heap → Option (ℕ × Heap)
  | 0, _, _, _ => none
  | fuel + 1, prev, cur, h =>
    if cur = 0 then some (0, h)
    else
      let start := alignUp cur align
      let frontPad := start - cur
      if (frontPad = 0 ∨ BLOCK_SIZE ≤ frontPad) ∧ frontPad + size ≤ h.mem cur then
        let tail := cur + h.mem cur - (start + size)
        let h := h.setLink prev (h.mem (cur + 8))
        (h.putBack cur frontPad).bind fun h =>
          (h.putBack (start + size) tail).map fun h =>
            (start, { h with allocated := h.allocated + size })
      else allocFrom align size fuel cur (h.mem (cur + 8)) h

/-- `alloc` (lines 91–132). -/
def alloc (h : Heap) (layout : Layout) : Option (ℕ × Heap) :=
  allocFrom (max layout.align MIN_ALIGN) layout.need STEPS 0 h.head h

/-- `dealloc` (lines 134–138). -/
def dealloc (h : Heap) (ptr : ℕ) (layout : Layout) : Option Heap :=
  ({ h with allocated := h.allocated - layout.need } : Heap).insert ptr layout.need

end Heap

/-! ## A heap and its users -/

/-- The memory that is donated to the heap. -/
structure Donated where
  start : ℕ
  size : ℕ
  pos : 0 < start
  aligned : PAGE_SIZE ∣ start
  fits : start + size ≤ 2 ^ 64

/-- `live` are the allocations that were not given back. -/
structure HeapUse where
  heap : Heap
  live : List (ℕ × Layout)

namespace HeapUse

/-- `store` is a write to a word of a live allocation. -/
inductive Act
  | alloc (layout : Layout)
  | dealloc (ptr : ℕ) (layout : Layout)
  | store (addr v : ℕ)

def step (s : HeapUse) : Act → Option HeapUse
  | .alloc layout => (s.heap.alloc layout).map fun (ptr, heap) =>
    { heap := heap, live := if ptr = 0 then s.live else (ptr, layout) :: s.live }
  | .dealloc ptr layout =>
    if (ptr, layout) ∈ s.live then
      (s.heap.dealloc ptr layout).map fun heap => { heap := heap, live := s.live.erase (ptr, layout) }
    else none
  | .store addr v =>
    if MIN_ALIGN ∣ addr ∧ ∃ a ∈ s.live, a.1 ≤ addr ∧ addr < a.1 + a.2.need then
      some { s with heap := s.heap.write addr v }
    else none

/-- After `add_region`. -/
def Starts (d : Donated) (s : HeapUse) : Prop :=
  (∃ mem, (Heap.new mem).addRegion d.start d.size = some s.heap) ∧ s.live = []

end HeapUse

/-! ## The free list in memory -/

namespace Heap

open Blocks (Covers Apart join)
open Linked (Path last last_mem)

/-- The free list consists of these blocks. -/
structure Lists (h : Heap) (l : List (ℕ × ℕ)) : Prop where
  path : Path h.link 0 (l.map Prod.fst) 0
  sizes : ∀ b ∈ l, h.mem b.1 = b.2

/-- The headers at these addresses do not overlap, and none is at address 0. -/
structure Spread (starts : List ℕ) : Prop where
  apart : starts.Pairwise fun a b => a + BLOCK_SIZE ≤ b
  pos : ∀ a ∈ starts, 0 < a

/-- The word at `addr` is not in a header. -/
def Clear (l : List (ℕ × ℕ)) (addr : ℕ) : Prop := ∀ b ∈ l, b.1 ≠ addr ∧ b.1 + 8 ≠ addr

section

variable {h : Heap} {l l' : List (ℕ × ℕ)} {b c : ℕ × ℕ} {addr p v n : ℕ}

theorem mem_write (h : Heap) (addr v : ℕ) : (h.write addr v).mem = Function.update h.mem addr v := rfl

theorem link_write_of_ne (hp : p ≠ 0 → p + 8 ≠ addr) : (h.write addr v).link p = h.link p := by
  unfold link
  split_ifs with hzero
  · rfl
  · exact Function.update_of_ne (hp hzero) _ _

theorem link_setLink (h : Heap) (p v : ℕ) : (h.setLink p v).link = Function.update h.link p v := by
  funext q
  unfold setLink
  by_cases hp : p = 0
  · rw [if_pos hp]
    by_cases hq : q = p
    · subst hq
      rw [Function.update_self, link, if_pos hp]
    · have hq0 : q ≠ 0 := hp ▸ hq
      rw [Function.update_of_ne hq, link, link, if_neg hq0, if_neg hq0]
  · rw [if_neg hp]
    by_cases hq : q = p
    · subst hq
      rw [Function.update_self, link, if_neg hp, mem_write, Function.update_self]
    · rw [Function.update_of_ne hq]
      exact link_write_of_ne fun _ => by omega

theorem mem_setLink (hne : p ≠ 0 → addr ≠ p + 8) : (h.setLink p v).mem addr = h.mem addr := by
  unfold setLink
  split_ifs with hp
  · rfl
  · exact Function.update_of_ne (hne hp) _ _

theorem setLink_of_ne (hp : p ≠ 0) : h.setLink p v = h.write (p + 8) v := if_neg hp

theorem Spread.nodup {starts : List ℕ} (hs : Spread starts) : (0 :: starts).Nodup := by
  refine List.nodup_cons.mpr ⟨fun hmem => absurd (hs.pos 0 hmem) (lt_irrefl 0), ?_⟩
  refine hs.apart.imp fun hab => ?_
  unfold BLOCK_SIZE at hab
  omega

/-- The link of a header is not the first word of another one. -/
theorem Spread.ne_link {starts : List ℕ} (hs : Spread starts) {a b : ℕ} (ha : a ∈ starts)
    (hb : b ∈ starts) : a ≠ b + 8 := by
  intro heq
  have hpair := List.pairwise_iff_getElem.mp hs.apart
  obtain ⟨i, hi, rfl⟩ := List.getElem_of_mem ha
  obtain ⟨j, hj, rfl⟩ := List.getElem_of_mem hb
  unfold BLOCK_SIZE at hpair
  rcases lt_trichotomy i j with hij | rfl | hij
  · have := hpair i j hi hj hij
    omega
  · omega
  · have := hpair j i hj hi hij
    omega

theorem Spread.sublist {starts starts' : List ℕ} (hs : Spread starts') (h : starts.Sublist starts') :
    Spread starts :=
  ⟨hs.apart.sublist h, fun a ha => hs.pos a (h.subset ha)⟩

/-- A write beside the headers. -/
theorem Lists.write (hl : Lists h l) (hclear : Clear l addr) (v : ℕ) : Lists (h.write addr v) l := by
  refine ⟨hl.path.congr fun p hp => link_write_of_ne fun hp0 => ?_, fun b hb => ?_⟩
  · rcases List.mem_cons.mp hp with rfl | hp
    · exact absurd rfl hp0
    · obtain ⟨b, hb, rfl⟩ := List.mem_map.mp hp
      exact (hclear b hb).2
  · rw [mem_write, Function.update_of_ne (hclear b hb).1]
    exact hl.sizes b hb

/-- The links from the end of `l` on. -/
theorem Lists.rest (hl : Lists h (l ++ l')) :
    h.link (last 0 (l.map Prod.fst)) = ((l'.map Prod.fst).headD 0) ∧
      ∀ p, h.link p = (l'.map Prod.fst).headD 0 → Path h.link p (l'.map Prod.fst) 0 := by
  have hpath := hl.path
  rw [List.map_append] at hpath
  cases l' with
  | nil =>
    rw [List.map_nil, List.append_nil] at hpath
    exact ⟨hpath.next_last, fun p hp => hp⟩
  | cons c l' =>
    rw [List.map_cons, Linked.path_append] at hpath
    exact ⟨hpath.1.next_last, fun p hp => ⟨hp, hpath.2⟩⟩

/-- The links are those of a list, and so are the sizes, whichever link is set. -/
theorem lists_setLink {starts : List ℕ} (hs : Spread starts) (hp : p ∈ 0 :: starts)
    (hl : ∀ b ∈ l, b.1 ∈ starts) (hsizes : ∀ b ∈ l, h.mem b.1 = b.2)
    (hpath : Path (Function.update h.link p v) 0 (l.map Prod.fst) 0) : Lists (h.setLink p v) l := by
  refine ⟨(link_setLink h p v).symm ▸ hpath, fun b hb => ?_⟩
  rw [mem_setLink fun hp0 => ?_]
  · exact hsizes b hb
  · exact hs.ne_link (hl b hb) ((List.mem_cons.mp hp).resolve_left hp0)

/-- A block is linked in between two blocks. -/
theorem Lists.splice (hl : Lists h (l ++ l')) (hs : Spread ((l ++ b :: l').map Prod.fst))
    (hb : h.mem b.1 = b.2) (hlink : h.link b.1 = (l'.map Prod.fst).headD 0) :
    Lists (h.setLink (last 0 (l.map Prod.fst)) b.1) (l ++ b :: l') := by
  have hnodup := hs.nodup
  refine lists_setLink hs ?_ (fun d hd => List.mem_map_of_mem hd) (fun d hd => ?_) ?_
  · rcases List.mem_cons.mp (last_mem 0 (l.map Prod.fst)) with hzero | hmem
    · exact List.mem_cons.mpr (.inl hzero)
    · rw [List.map_append]
      exact .tail _ (List.mem_append_left _ hmem)
  · rcases List.mem_append.mp hd with hd | hd
    · exact hl.sizes d (List.mem_append_left _ hd)
    · rcases List.mem_cons.mp hd with rfl | hd
      · exact hb
      · exact hl.sizes d (List.mem_append_right _ hd)
  · have hpath := hl.path
    rw [List.map_append] at hpath
    rw [List.map_append, List.map_cons] at hnodup ⊢
    rw [← List.cons_append] at hnodup
    obtain ⟨hnew, hold⟩ := List.nodup_cons.mp (List.nodup_middle.mp hnodup)
    exact hpath.splice (hl.rest.2 b.1 hlink) hold hnew

/-- A block is linked out. -/
theorem Lists.skip (hl : Lists h (l ++ b :: l')) (hs : Spread ((l ++ b :: l').map Prod.fst)) :
    Lists (h.setLink (last 0 (l.map Prod.fst)) (h.mem (b.1 + 8))) (l ++ l') := by
  have hb : b.1 ≠ 0 := (hs.pos b.1 (List.mem_map_of_mem (by simp))).ne'
  have hnodup := hs.nodup
  refine lists_setLink hs ?_ (fun d hd => List.mem_map_of_mem ?_) (fun d hd => hl.sizes d ?_) ?_
  · rcases List.mem_cons.mp (last_mem 0 (l.map Prod.fst)) with hzero | hmem
    · exact List.mem_cons.mpr (.inl hzero)
    · rw [List.map_append]
      exact .tail _ (List.mem_append_left _ hmem)
  · exact ((List.sublist_cons_self _ _).append_left _).subset hd
  · exact ((List.sublist_cons_self _ _).append_left _).subset hd
  · have hpath := hl.path
    have hlink : h.mem (b.1 + 8) = h.link b.1 := (if_neg hb).symm
    rw [List.map_append, List.map_cons] at hpath hnodup
    rw [List.map_append, hlink]
    exact hpath.skip hnodup

/-- The size of a block is set. -/
theorem Lists.resize (hl : Lists h (l ++ b :: l')) (hs : Spread ((l ++ b :: l').map Prod.fst)) (n : ℕ) :
    Lists (h.write b.1 n) (l ++ (b.1, n) :: l') := by
  have hmem : b.1 ∈ (l ++ b :: l').map Prod.fst := List.mem_map_of_mem (by simp)
  have hsame : (l ++ (b.1, n) :: l').map Prod.fst = (l ++ b :: l').map Prod.fst := by simp
  refine ⟨?_, fun d hd => ?_⟩
  · rw [hsame]
    refine hl.path.congr fun p hp => link_write_of_ne fun hp0 => ?_
    exact (hs.ne_link hmem ((List.mem_cons.mp hp).resolve_left hp0)).symm
  · have hnodup := (List.nodup_cons.mp hs.nodup).2
    rw [List.map_append, List.map_cons] at hnodup
    obtain ⟨hnot, -⟩ := List.nodup_cons.mp (List.nodup_middle.mp hnodup)
    rw [← List.map_append] at hnot
    have hother : ∀ d ∈ l ++ l', (h.write b.1 n).mem d.1 = d.2 := fun d hd => by
      have hne : d.1 ≠ b.1 := fun heq => hnot (heq ▸ List.mem_map_of_mem hd)
      rw [mem_write, Function.update_of_ne hne]
      exact hl.sizes d (((List.sublist_cons_self _ _).append_left _).subset hd)
    rcases List.mem_append.mp hd with hd | hd
    · exact hother d (List.mem_append_left _ hd)
    · rcases List.mem_cons.mp hd with rfl | hd
      · exact Function.update_self ..
      · exact hother d (List.mem_append_right _ hd)

/-- A block absorbs the next one. -/
theorem Lists.absorb (hl : Lists h (l ++ b :: c :: l')) (hs : Spread ((l ++ b :: c :: l').map Prod.fst)) :
    Lists (h.absorb b.1 c.1) (l ++ (b.1, b.2 + c.2) :: l') := by
  have hb : b.1 ≠ 0 := (hs.pos b.1 (List.mem_map_of_mem (by simp))).ne'
  have hsame : (l ++ [(b.1, b.2 + c.2)] ++ c :: l').map Prod.fst = (l ++ b :: c :: l').map Prod.fst := by
    simp
  have hresize := hl.resize hs (b.2 + c.2)
  rw [List.append_cons] at hresize
  have hskip := hresize.skip (hsame ▸ hs)
  rw [List.map_append, List.map_singleton, Linked.last_concat, setLink_of_ne hb, List.append_assoc]
    at hskip
  rw [Heap.absorb, hl.sizes b (by simp), hl.sizes c (by simp)]
  exact hskip

/-! ## Insertion -/

/-- With a step for every block, the loop of `insert` stops behind the blocks in front of the new
one. -/
theorem seek_spec (block : ℕ) {fuel : ℕ} : ∀ {l : List (ℕ × ℕ)} {prev : ℕ},
    Path h.link prev (l.map Prod.fst) 0 → (∀ b ∈ l, 0 < b.1) → l.length < fuel →
      ∃ pre post, l = pre ++ post ∧ (∀ b ∈ pre, b.1 < block) ∧ (∀ b ∈ post.head?, ¬b.1 < block) ∧
        h.seek block fuel prev (h.link prev) =
          some (last prev (pre.map Prod.fst), (post.map Prod.fst).headD 0) := by
  induction fuel with
  | zero => intro l prev _ _ hlen; omega
  | succ fuel ih =>
    intro l prev hpath hpos hlen
    rw [seek]
    cases l with
    | nil =>
      refine ⟨[], [], rfl, nofun, nofun, ?_⟩
      rw [show h.link prev = 0 from hpath, if_neg fun hn => hn.1 rfl]
      rfl
    | cons b l =>
      obtain ⟨hb, hrest⟩ := hpath
      have hbpos := hpos b List.mem_cons_self
      rw [hb]
      by_cases hlt : b.1 < block
      · obtain ⟨pre, post, rfl, hpre, hpost, hseek⟩ :=
          ih hrest (fun c hc => hpos c (.tail _ hc)) (Nat.lt_of_succ_lt_succ hlen)
        refine ⟨b :: pre, post, rfl, List.forall_mem_cons.mpr ⟨hlt, hpre⟩, hpost, ?_⟩
        rw [if_pos ⟨hbpos.ne', hlt⟩]
        rw [link, if_neg hbpos.ne'] at hseek
        exact hseek
      · refine ⟨[], b :: l, rfl, nofun, ?_, if_neg fun hn => hlt hn.2⟩
        rintro c hc
        obtain rfl := Option.some.inj hc
        exact hlt

/-- The free list is as it should be, in the region from `lo` to `hi`. -/
structure Good (lo hi : ℕ) (l : List (ℕ × ℕ)) : Prop where
  apart : Apart l
  aligned : ∀ b ∈ l, MIN_ALIGN ∣ b.1
  big : ∀ b ∈ l, BLOCK_SIZE ≤ b.2
  from_lo : ∀ b ∈ l, lo ≤ b.1
  to_hi : ∀ b ∈ l, b.1 + b.2 ≤ hi

section

variable {lo hi : ℕ}

theorem Good.spread (hg : Good lo hi l) (hlo : 0 < lo) : Spread (l.map Prod.fst) := by
  refine ⟨List.pairwise_map.mpr ?_, fun a ha => ?_⟩
  · refine hg.apart.imp_of_mem fun {b c} hb _ hbc => ?_
    have := hg.big b hb
    omega
  · obtain ⟨b, hb, rfl⟩ := List.mem_map.mp ha
    exact hlo.trans_le (hg.from_lo b hb)

theorem Good.sublist (hg : Good lo hi l') (h : l.Sublist l') : Good lo hi l :=
  ⟨hg.apart.sublist h, fun b hb => hg.aligned b (h.subset hb), fun b hb => hg.big b (h.subset hb),
    fun b hb => hg.from_lo b (h.subset hb), fun b hb => hg.to_hi b (h.subset hb)⟩

/-- A block of the region that is apart from the free ones. -/
structure Fits (lo hi : ℕ) (l : List (ℕ × ℕ)) (b : ℕ × ℕ) : Prop where
  aligned : MIN_ALIGN ∣ b.1
  big : BLOCK_SIZE ≤ b.2
  from_lo : lo ≤ b.1
  to_hi : b.1 + b.2 ≤ hi
  free : ∀ x, b.1 ≤ x → x < b.1 + b.2 → ¬Covers l x

theorem Good.insert (hg : Good lo hi l) (hb : Fits lo hi l b) : Good lo hi (Blocks.insert b l) := by
  have hpos : ∀ c ∈ l, 0 < c.2 := fun c hc => lt_of_lt_of_le (by decide) (hg.big c hc)
  have hbpos : 0 < b.2 := lt_of_lt_of_le (by decide) hb.big
  refine ⟨hg.apart.insert hpos hbpos hb.free, fun d hd => ?_, fun d hd => ?_, fun d hd => ?_,
    fun d hd => ?_⟩
  · obtain ⟨c, rfl | hc, hstart, -⟩ := Blocks.mem_insert hd
    · exact hstart ▸ hb.aligned
    · exact hstart ▸ hg.aligned c hc
  · obtain ⟨c, rfl | hc, -, hsize⟩ := Blocks.mem_insert hd
    · exact hb.big.trans hsize
    · exact (hg.big c hc).trans hsize
  · obtain ⟨c, rfl | hc, hstart, -⟩ := Blocks.mem_insert hd
    · exact hstart ▸ hb.from_lo
    · exact hstart ▸ hg.from_lo c hc
  · -- the last address of the block is covered by one of the old blocks
    have hdpos : 0 < d.2 := by
      obtain ⟨c, rfl | hc, -, hsize⟩ := Blocks.mem_insert hd
      · exact hbpos.trans_le hsize
      · exact (hpos c hc).trans_le hsize
    have hcov : Covers (Blocks.insert b l) (d.1 + d.2 - 1) := ⟨d, hd, by omega, by omega⟩
    rcases Blocks.covers_insert.mp hcov with hin | ⟨c, hc, hin⟩
    · have := hb.to_hi
      omega
    · have := hg.to_hi c hc
      omega

theorem length_le : ∀ {l : List (ℕ × ℕ)} {lo : ℕ}, Apart l → (∀ b ∈ l, lo ≤ b.1 ∧ b.1 < hi) →
    l.length ≤ hi - lo := by
  intro l
  induction l with
  | nil => intro lo _ _; exact Nat.zero_le _
  | cons c l ih =>
    intro lo h hin
    obtain ⟨hc, hl⟩ := List.pairwise_cons.mp h
    have hfirst := hin c List.mem_cons_self
    have hrest := @ih (c.1 + 1) hl fun b hb => ⟨by have := hc b hb; omega, (hin b (.tail _ hb)).2⟩
    rw [List.length_cons]
    omega

theorem Good.length_lt (hg : Good lo hi l) (hlo : 0 < lo) (hhi : hi ≤ 2 ^ 64) : l.length < STEPS := by
  have hlen : l.length ≤ hi - lo := length_le hg.apart fun b hb => ⟨hg.from_lo b hb, by
    have hbig := hg.big b hb
    have hto := hg.to_hi b hb
    unfold BLOCK_SIZE at hbig
    omega⟩
  unfold STEPS
  omega

/-- The new block lies behind or in front of each free one. -/
theorem Fits.behind (hb : Fits lo hi l b) (hg : Good lo hi l) (hc : c ∈ l) :
    b.1 + b.2 ≤ c.1 ∨ c.1 + c.2 ≤ b.1 := by
  have hbbig := hb.big
  have hcbig := hg.big c hc
  unfold BLOCK_SIZE at hbbig hcbig
  exact Blocks.behind_of_disjoint (by omega) (by omega) fun x hx hx' hcx =>
    hb.free x hx hx' ⟨c, hc, hcx⟩

theorem Fits.clear (hb : Fits lo hi l b) (hg : Good lo hi l) (hx : b.1 ≤ addr)
    (hx' : addr < b.1 + BLOCK_SIZE) : Clear l addr := by
  intro c hc
  have hbehind := hb.behind hg hc
  have hbbig := hb.big
  have hcbig := hg.big c hc
  have hba := hb.aligned
  have hca := hg.aligned c hc
  unfold BLOCK_SIZE at hbbig hcbig hx'
  omega

/-- The headers do not overlap when the new one is among them. -/
theorem Fits.spread (hb : Fits lo hi (l ++ l') b) (hg : Good lo hi (l ++ l')) (hlo : 0 < lo)
    (hl : ∀ c ∈ l, c.1 < b.1) (hl' : ∀ c ∈ l'.head?, ¬c.1 < b.1) :
    Spread ((l ++ b :: l').map Prod.fst) := by
  have hspread := hg.spread hlo
  rw [List.map_append, List.map_cons]
  rw [List.map_append] at hspread
  obtain ⟨hfront, hback, hboth⟩ := List.pairwise_append.mp hspread.apart
  have hbefore : ∀ a ∈ l.map Prod.fst, a + BLOCK_SIZE ≤ b.1 := by
    intro a ha
    obtain ⟨c, hc, rfl⟩ := List.mem_map.mp ha
    have hmem : c ∈ l ++ l' := List.mem_append_left _ hc
    have := hb.behind hg hmem
    have := hl c hc
    have := hg.big c hmem
    omega
  have hafter : ∀ a ∈ l'.map Prod.fst, b.1 + BLOCK_SIZE ≤ a := by
    intro a ha
    obtain ⟨c, hc, rfl⟩ := List.mem_map.mp ha
    have hmem : c ∈ l ++ l' := List.mem_append_right _ hc
    have hle : b.1 ≤ c.1 := by
      cases l' with
      | nil => cases hc
      | cons d l' =>
        have hd := Nat.not_lt.mp (hl' d rfl)
        rcases List.mem_cons.mp hc with rfl | hc
        · exact hd
        · have hpair := (List.pairwise_cons.mp (List.pairwise_append.mp hg.apart).2.1).1 c hc
          omega
    have := hb.behind hg hmem
    have := hg.big c hmem
    have := hb.big
    unfold BLOCK_SIZE at *
    omega
  refine ⟨List.pairwise_append.mpr ⟨hfront, List.pairwise_cons.mpr ⟨hafter, hback⟩, ?_⟩, ?_⟩
  · intro a ha d hd
    rcases List.mem_cons.mp hd with rfl | hd
    · exact hbefore a ha
    · exact hboth a ha d hd
  · intro a ha
    rcases List.mem_append.mp ha with ha | ha
    · exact hspread.pos a (List.mem_append_left _ ha)
    · rcases List.mem_cons.mp ha with rfl | ha
      · exact hlo.trans_le hb.from_lo
      · exact hspread.pos a (List.mem_append_right _ ha)

/-- A block is joined with the next one, if they touch. -/
theorem Lists.join (hl : Lists h (l ++ b :: l')) (hs : Spread ((l ++ b :: l').map Prod.fst)) {next : ℕ}
    (hnext : next = (l'.map Prod.fst).headD 0) :
    Lists (if next ≠ 0 ∧ b.1 + b.2 = next then h.absorb b.1 next else h) (l ++ join b l') := by
  cases l' with
  | nil =>
    rw [if_neg fun hn => hn.1 hnext]
    exact hl
  | cons c l' =>
    have hc : next = c.1 := hnext
    have hpos : c.1 ≠ 0 := (hs.pos c.1 (List.mem_map_of_mem (by simp))).ne'
    rw [hc, Blocks.join]
    by_cases htouch : b.1 + b.2 = c.1
    · rw [if_pos ⟨hpos, htouch⟩, if_pos htouch]
      exact hl.absorb hs
    · rw [if_neg fun hn => htouch hn.2, if_neg htouch]
      exact hl

/-- A block is put in its place and joined with the blocks that it touches. -/
theorem insert_spec (hl : Lists h l) (hg : Good lo hi l) (hlo : 0 < lo) (hhi : hi ≤ 2 ^ 64)
    (hb : Fits lo hi l b) : ∃ h', h.insert b.1 b.2 = some h' ∧ Lists h' (Blocks.insert b l) := by
  have hbpos : b.1 ≠ 0 := (hlo.trans_le hb.from_lo).ne'
  have hbig := hb.big
  have hfirst : Clear l b.1 := hb.clear hg le_rfl (Nat.lt_add_of_pos_right (by decide))
  have hsecond : Clear l (b.1 + 8) := hb.clear hg (Nat.le_add_right ..) (by unfold BLOCK_SIZE; omega)
  have hl₀ := (hl.write hfirst b.2).write hsecond 0
  obtain ⟨pre, post, rfl, hpre, hpost, hseek⟩ := seek_spec b.1 hl₀.path
    (fun c hc => hlo.trans_le (hg.from_lo c hc)) (hg.length_lt hlo hhi)
  have hs := hb.spread hg hlo hpre hpost
  -- the block is linked in
  have hl₁ := hl₀.write hsecond ((post.map Prod.fst).headD 0)
  have hl₂ := hl₁.splice (b := b) hs ?_ ?_
  · -- and joined with the next one, and the one in front with it
    have hl₃ := hl₂.join hs rfl
    rw [Heap.insert]
    dsimp only
    rw [show ∀ h : Heap, h.head = h.link 0 from fun _ => rfl, hseek, Option.map_some]
    refine ⟨_, rfl, ?_⟩
    dsimp only
    generalize (if (post.map Prod.fst).headD 0 ≠ 0 ∧ b.1 + b.2 = (post.map Prod.fst).headD 0 then _
      else _) = h₃ at hl₃ ⊢
    rcases List.eq_nil_or_concat pre with rfl | ⟨pre, p, rfl⟩
    · rw [if_neg fun hn => hn.1 rfl, List.nil_append, Blocks.insert_front hpost]
      exact hl₃
    · rw [List.concat_eq_append] at *
      rw [List.map_append, List.map_singleton, Linked.last_concat]
      rw [List.append_assoc, List.singleton_append] at hg hl₃ ⊢
      have hp := hpre p (List.mem_append_right _ List.mem_cons_self)
      rw [Blocks.insert_append hg.apart hp hpost]
      have hppos : p.1 ≠ 0 := (hlo.trans_le (hg.from_lo p (by simp))).ne'
      obtain ⟨n, rest, hjoin, hrest⟩ := Blocks.join_eq b post
      rw [hjoin] at hl₃ ⊢
      rw [hl₃.sizes p (by simp)]
      have hs₃ : Spread ((pre ++ p :: (b.1, n) :: rest).map Prod.fst) := by
        refine hs.sublist ?_
        simp only [List.map_append, List.map_cons, List.append_assoc, List.singleton_append]
        exact (((hrest.map Prod.fst).cons_cons _).cons_cons _).append_left _
      have hl₄ := hl₃.join hs₃ rfl
      refine (congrArg (Lists · _) (if_congr ?_ rfl rfl)).mp hl₄
      exact and_congr_left' (iff_of_true hbpos hppos)
  · rw [mem_write, mem_write, mem_write, Function.update_of_ne (by omega),
      Function.update_of_ne (by omega), Function.update_self]
  · rw [link, if_neg hbpos, mem_write, Function.update_self]

/-! ## Allocation -/

theorem le_alignUp {align : ℕ} (hpos : 0 < align) (v : ℕ) : v ≤ alignUp v align := by
  have hdiv := Nat.div_add_mod (v + align - 1) align
  have hlt := Nat.mod_lt (v + align - 1) hpos
  rw [Nat.mul_comm] at hdiv
  unfold alignUp
  omega

theorem dvd_alignUp (align v : ℕ) : align ∣ alignUp v align := Nat.dvd_mul_left ..

theorem alignUp_lt {align : ℕ} (hpos : 0 < align) (v : ℕ) : alignUp v align < v + align := by
  have hle := Nat.div_mul_le_self (v + align - 1) align
  unfold alignUp
  omega

theorem le_need (layout : Layout) : BLOCK_SIZE ≤ layout.need :=
  (le_max_right ..).trans (le_alignUp (by decide) _)

/-- The alignment that is used (line 92). -/
theorem align_cases (layout : Layout) : ∃ align, max layout.align MIN_ALIGN = align ∧ 0 < align ∧
    MIN_ALIGN ∣ align ∧ layout.align ∣ align := by
  obtain ⟨k, hk⟩ := layout.pow
  rw [hk, show MIN_ALIGN = 2 ^ 3 from rfl]
  rcases Nat.le_total k 3 with hle | hle
  · exact ⟨_, max_eq_right (Nat.pow_le_pow_right Nat.two_pos hle), by decide, Nat.dvd_refl _,
      Nat.pow_dvd_pow 2 hle⟩
  · exact ⟨_, max_eq_left (Nat.pow_le_pow_right Nat.two_pos hle), Nat.two_pow_pos k,
      Nat.pow_dvd_pow 2 hle, Nat.dvd_refl _⟩

/-- The sums of the loop of `alloc` do not wrap around: the least multiple of the alignment from a
block on is an address or the end of the address space, and the padding leaves room for the size. -/
theorem frontPad_add_lt (layout : Layout) {v : ℕ} (hv : v < 2 ^ 64) :
    alignUp v (max layout.align MIN_ALIGN) ≤ 2 ^ 64 ∧
      alignUp v (max layout.align MIN_ALIGN) - v + layout.need < 2 ^ 64 := by
  obtain ⟨k, hk⟩ := layout.pow
  have hfits := layout.fits
  have hk63 : k ≤ 63 := by
    by_contra hlt
    have := Nat.pow_lt_pow_right (a := 2) (by decide) (Nat.not_le.mp hlt)
    omega
  obtain ⟨align, halign, hpos, -, -⟩ := align_cases layout
  have hdvd : align ∣ 2 ^ 64 := by
    rw [← halign, hk, show MIN_ALIGN = 2 ^ 3 from rfl]
    rcases max_choice (2 ^ k) (2 ^ 3) with hmax | hmax <;> rw [hmax]
    · exact Nat.pow_dvd_pow 2 (by omega)
    · exact Nat.pow_dvd_pow 2 (by decide)
  have hpad := alignUp_lt hpos v
  have hneed : layout.need < max layout.size BLOCK_SIZE + MIN_ALIGN := alignUp_lt (by decide) _
  have hmul : alignUp v align ≤ 2 ^ 64 := by
    obtain ⟨q, hq⟩ := hdvd
    rw [hq, Nat.mul_comm align, alignUp]
    refine Nat.mul_le_mul_right _ (Nat.le_of_lt_succ ((Nat.div_lt_iff_lt_mul hpos).mpr ?_))
    rw [Nat.succ_mul, Nat.mul_comm q, ← hq]
    omega
  rw [halign]
  unfold MIN_ALIGN at halign hneed
  unfold BLOCK_SIZE at hneed
  omega

/-- The list after `putBack`. -/
def keep (b : ℕ × ℕ) (l : List (ℕ × ℕ)) : List (ℕ × ℕ) :=
  if BLOCK_SIZE ≤ b.2 then Blocks.insert b l else l

theorem covers_keep {x : ℕ} :
    Covers (keep b l) x ↔ Covers l x ∨ BLOCK_SIZE ≤ b.2 ∧ b.1 ≤ x ∧ x < b.1 + b.2 := by
  unfold keep
  split_ifs with hbig
  · rw [Blocks.covers_insert, or_comm, and_iff_right hbig]
  · exact ⟨.inl, fun h => h.resolve_right fun hin => hbig hin.1⟩

theorem bytes_keep : Blocks.bytes (keep b l) = Blocks.bytes l + if BLOCK_SIZE ≤ b.2 then b.2 else 0 := by
  unfold keep
  split_ifs
  · rw [Blocks.bytes_insert, Nat.add_comm]
  · rfl

/-- A part of a block goes back to the list, unless it is too small. -/
theorem putBack_spec (hl : Lists h l) (hg : Good lo hi l) (hlo : 0 < lo) (hhi : hi ≤ 2 ^ 64)
    (hb : BLOCK_SIZE ≤ b.2 → Fits lo hi l b) :
    ∃ h', h.putBack b.1 b.2 = some h' ∧ Lists h' (keep b l) ∧ Good lo hi (keep b l) := by
  rw [putBack, keep]
  by_cases hbig : BLOCK_SIZE ≤ b.2
  · obtain ⟨h', hinsert, hl'⟩ := insert_spec hl hg hlo hhi (hb hbig)
    refine ⟨h', ?_, ?_⟩
    · rw [if_pos hbig, hinsert]
    · rw [if_pos hbig]
      exact ⟨hl', hg.insert (hb hbig)⟩
  · exact ⟨h, if_neg hbig, by rw [if_neg hbig]; exact ⟨hl, hg⟩⟩

/-- The test of the loop of `alloc` (lines 104–105). -/
def takes (align need : ℕ) (b : ℕ × ℕ) : Bool :=
  (alignUp b.1 align - b.1 = 0 ∨ BLOCK_SIZE ≤ alignUp b.1 align - b.1) ∧
    alignUp b.1 align - b.1 + need ≤ b.2

/-- How much of the block is behind the allocation (lines 106–107). -/
def tailOf (align need : ℕ) (b : ℕ × ℕ) : ℕ := b.1 + b.2 - (alignUp b.1 align + need)

/-- What is left when an allocation takes block `b` of the list: all the rest, but for a tail that is too
small for a block. -/
structure Leaves (l l' : List (ℕ × ℕ)) (align need : ℕ) (b : ℕ × ℕ) : Prop where
  bytes : Blocks.bytes l' + need + (if BLOCK_SIZE ≤ tailOf align need b then 0 else tailOf align need b) =
    Blocks.bytes l
  covers : (tailOf align need b = 0 ∨ BLOCK_SIZE ≤ tailOf align need b) → ∀ x, Covers l x →
    Covers l' x ∨ alignUp b.1 align ≤ x ∧ x < alignUp b.1 align + need

/-- An allocation of `need` bytes at `p` was taken from the free blocks. -/
structure Takes (lo hi : ℕ) (l l' : List (ℕ × ℕ)) (align need p : ℕ) : Prop where
  good : Good lo hi l'
  aligned : align ∣ p
  taken : ∀ x, p ≤ x → x < p + need → Covers l x
  left : ∀ x, Covers l' x → Covers l x ∧ ¬(p ≤ x ∧ x < p + need)
  from_lo : lo ≤ p
  to_hi : p + need ≤ hi

/-- The block is big enough for the allocation, which then takes the middle of it. -/
theorem take_spec (hl : Lists h (l ++ b :: l')) (hg : Good lo hi (l ++ b :: l')) (hlo : 0 < lo)
    (hhi : hi ≤ 2 ^ 64) {align need : ℕ} (hpos : 0 < align) (halign : MIN_ALIGN ∣ align)
    (hneed : MIN_ALIGN ∣ need) (htakes : takes align need b = true) {h₁ : Heap}
    (hh : h₁ = h.setLink (last 0 (l.map Prod.fst)) (h.mem (b.1 + 8))) :
    ∃ h₂ h₃ l₃, h₁.putBack b.1 (alignUp b.1 align - b.1) = some h₂ ∧
      h₂.putBack (alignUp b.1 align + need) (b.1 + b.2 - (alignUp b.1 align + need)) = some h₃ ∧
      Lists h₃ l₃ ∧ Takes lo hi (l ++ b :: l') l₃ align need (alignUp b.1 align) ∧
      Leaves (l ++ b :: l') l₃ align need b := by
  obtain ⟨hfront, hsize⟩ := of_decide_eq_true htakes
  have hle := le_alignUp hpos b.1
  have hdvd := dvd_alignUp align b.1
  have htail : tailOf align need b = b.1 + b.2 - (alignUp b.1 align + need) := rfl
  have hb : b ∈ l ++ b :: l' := List.mem_append_right _ List.mem_cons_self
  have hsub : (l ++ l').Sublist (l ++ b :: l') := (List.sublist_cons_self _ _).append_left _
  have hl₁ : Lists h₁ (l ++ l') := hh ▸ hl.skip (hg.spread hlo)
  have hlob := hg.from_lo b hb
  have hhib := hg.to_hi b hb
  have hout : ∀ x, b.1 ≤ x → x < b.1 + b.2 → ¬Covers (l ++ l') x := fun x => hg.apart.not_covers
  have hbytes : Blocks.bytes (l ++ b :: l') = Blocks.bytes (l ++ l') + b.2 := by
    rw [Blocks.bytes_append, Blocks.bytes_append, Blocks.bytes_cons]
    omega
  have hin : ∀ x, Covers (l ++ b :: l') x → Covers (l ++ l') x ∨ b.1 ≤ x ∧ x < b.1 + b.2 := by
    intro x hx
    rw [Blocks.covers_append, Blocks.covers_cons] at hx
    rw [Blocks.covers_append]
    tauto
  generalize hstart : alignUp b.1 align = start at *
  have hmin : MIN_ALIGN ∣ start := Nat.dvd_trans halign hdvd
  obtain ⟨h₂, hput₂, hl₂, hg₂⟩ := putBack_spec (b := (b.1, start - b.1)) hl₁
    (hg.sublist hsub) hlo hhi fun hbig => ⟨hg.aligned b hb, hbig, hlob, by dsimp only; omega,
      fun x hx hx' => hout x hx (by dsimp only at hx'; omega)⟩
  -- what is in the list by now is not in the block, or in front of the allocation
  have hrest : ∀ x, start ≤ x → x < b.1 + b.2 → ¬Covers (keep (b.1, start - b.1) (l ++ l')) x := by
    intro x hx hx' hcov
    rcases covers_keep.mp hcov with hold | ⟨-, -, hfront⟩
    · exact hout x (by omega) hx' hold
    · dsimp only at hfront
      omega
  obtain ⟨h₃, hput₃, hl₃, hg₃⟩ := putBack_spec
    (b := (start + need, b.1 + b.2 - (start + need))) hl₂ hg₂ hlo hhi fun hbig =>
      ⟨Nat.dvd_add hmin hneed, hbig, by dsimp only; omega, by dsimp only; omega,
        fun x hx hx' => hrest x (by dsimp only at hx; omega) (by dsimp only at hx'; omega)⟩
  refine ⟨h₂, h₃, _, hput₂, hput₃, hl₃, ⟨hg₃, hdvd, fun x hx hx' => ⟨b, hb, by omega, by omega⟩,
    fun x hx => ?_, by omega, by omega⟩, ?_, fun hwhole x hx => ?_⟩
  · rcases covers_keep.mp hx with hcov | ⟨-, htail, hend⟩
    · refine ⟨?_, fun hin => hrest x hin.1 (by omega) hcov⟩
      rcases covers_keep.mp hcov with ⟨c, hc, hin⟩ | ⟨-, hfrom, hto⟩
      · exact ⟨c, hsub.subset hc, hin⟩
      · dsimp only at hfrom hto
        exact ⟨b, hb, by omega, by omega⟩
    · dsimp only at htail hend
      exact ⟨⟨b, hb, by omega, by omega⟩, by omega⟩
  · rw [bytes_keep, bytes_keep, hbytes, htail]
    dsimp only
    split_ifs <;> omega
  · rw [hstart, covers_keep, covers_keep]
    rw [htail] at hwhole
    dsimp only
    rcases hin x hx with hold | hblock
    · exact .inl (.inl (.inl hold))
    · by_cases hbefore : x < start
      · exact .inl (.inl (.inr ⟨by omega, by omega, by omega⟩))
      · by_cases hwithin : x < start + need
        · exact .inr ⟨by omega, hwithin⟩
        · exact .inl (.inr ⟨by omega, by omega, by omega⟩)

theorem totals_setLink (h : Heap) (p v : ℕ) :
    (h.setLink p v).total = h.total ∧ (h.setLink p v).allocated = h.allocated := by
  unfold setLink
  split_ifs <;> exact ⟨rfl, rfl⟩

/-- `insert` leaves the totals alone. -/
theorem totals_insert {block size : ℕ} {h' : Heap} (hi : h.insert block size = some h') :
    h'.total = h.total ∧ h'.allocated = h.allocated := by
  obtain ⟨⟨prev, cur⟩, -, rfl⟩ := Option.map_eq_some_iff.mp hi
  have hlink := totals_setLink
    (((h.write block size).write (block + 8) 0).write (block + 8) cur) prev block
  dsimp only
  split_ifs <;> exact hlink

theorem totals_putBack {block size : ℕ} {h' : Heap} (hp : h.putBack block size = some h') :
    h'.total = h.total ∧ h'.allocated = h.allocated := by
  unfold putBack at hp
  split_ifs at hp
  · exact totals_insert hp
  · cases hp
    exact ⟨rfl, rfl⟩

/-- What the loop of `alloc` does: it takes the first block that passes its test. -/
theorem allocFrom_spec (hg : Good lo hi l) (hl : Lists h l) (hlo : 0 < lo) (hhi : hi ≤ 2 ^ 64)
    {align need : ℕ} (hpos : 0 < align) (halign : MIN_ALIGN ∣ align) (hneed : MIN_ALIGN ∣ need)
    {fuel : ℕ} : ∀ (pre post : List (ℕ × ℕ)), l = pre ++ post → post.length < fuel →
      ∃ p h', allocFrom align need fuel (last 0 (pre.map Prod.fst)) ((post.map Prod.fst).headD 0) h =
        some (p, h') ∧ h'.total = h.total ∧
        ((∀ b ∈ post, ¬takes align need b) ∧ p = 0 ∧ h' = h ∨
          ∃ b l', post.find? (takes align need) = some b ∧ p = alignUp b.1 align ∧
            h'.allocated = h.allocated + need ∧ Lists h' l' ∧ Takes lo hi l l' align need p ∧
            Leaves l l' align need b) := by
  induction fuel with
  | zero => intro pre post _ hlen; omega
  | succ fuel ih =>
    intro pre post hsplit hlen
    rw [allocFrom]
    cases post with
    | nil => exact ⟨0, h, if_pos rfl, rfl, .inl ⟨nofun, rfl, rfl⟩⟩
    | cons b post =>
      have hb : b ∈ l := hsplit ▸ List.mem_append_right _ List.mem_cons_self
      have hbpos : b.1 ≠ 0 := (hlo.trans_le (hg.from_lo b hb)).ne'
      rw [List.map_cons, List.headD_cons, if_neg hbpos, hl.sizes b hb]
      by_cases htakes : takes align need b = true
      · subst hsplit
        obtain ⟨h₂, h₃, l₃, hput₂, hput₃, hl₃, htook, hleaves⟩ :=
          take_spec hl hg hlo hhi hpos halign hneed htakes rfl
        have hlink := totals_setLink h (last 0 (pre.map Prod.fst)) (h.mem (b.1 + 8))
        have htotal₂ := totals_putBack hput₂
        have htotal₃ := totals_putBack hput₃
        refine ⟨alignUp b.1 align, { h₃ with allocated := h₃.allocated + need }, ?_,
          htotal₃.1.trans (htotal₂.1.trans hlink.1), .inr ⟨b, l₃, List.find?_cons_of_pos htakes, rfl, ?_,
            ⟨hl₃.path, hl₃.sizes⟩, htook, hleaves⟩⟩
        · dsimp only
          rw [if_pos (of_decide_eq_true htakes), hput₂, Option.bind_some, hput₃]
          rfl
        · dsimp only
          rw [htotal₃.2, htotal₂.2, hlink.2]
      · have hnext : h.mem (b.1 + 8) = (post.map Prod.fst).headD 0 := by
          have hrest := hl
          rw [hsplit, List.append_cons] at hrest
          have hlink := hrest.rest.1
          rw [List.map_append, List.map_singleton, Linked.last_concat, link, if_neg hbpos] at hlink
          exact hlink
        have hlast : b.1 = last 0 ((pre ++ [b]).map Prod.fst) := by
          rw [List.map_append, List.map_singleton, Linked.last_concat]
        dsimp only
        rw [if_neg fun hfit => htakes (decide_eq_true hfit), hnext, hlast,
          List.find?_cons_of_neg htakes]
        obtain ⟨p, h', halloc, htotal, hcase⟩ :=
          ih (pre ++ [b]) post (by rw [hsplit, List.append_cons]) (Nat.lt_of_succ_lt_succ hlen)
        refine ⟨p, h', halloc, htotal, hcase.imp_left fun hnone => ⟨?_, hnone.2⟩⟩
        exact List.forall_mem_cons.mpr ⟨htakes, hnone.1⟩

end

end

end Heap

/-! ## Every history -/

namespace HeapUse

open Blocks (Covers)
open Heap (Lists Good)

/-- The free list consists of the blocks `l`, which are sorted, aligned, big enough, in the region,
and neither overlap nor touch; the live allocations are aligned as they were asked for, in the region,
and apart from each other and from the free blocks. -/
structure Sound (d : Donated) (s : HeapUse) (l : List (ℕ × ℕ)) : Prop where
  lists : Lists s.heap l
  good : Good d.start (d.start + d.size) l
  aligned : ∀ a ∈ s.live, a.2.align ∣ a.1 ∧ MIN_ALIGN ∣ a.1
  inside : ∀ a ∈ s.live, d.start ≤ a.1 ∧ a.1 + a.2.need ≤ d.start + d.size
  free : ∀ a ∈ s.live, ∀ x, a.1 ≤ x → x < a.1 + a.2.need → ¬Covers l x
  apart : s.live.Pairwise fun a b => a.1 + a.2.need ≤ b.1 ∨ b.1 + b.2.need ≤ a.1

section

variable {d : Donated} {s s' : HeapUse} {l : List (ℕ × ℕ)} {ptr : ℕ} {layout : Layout} {a : Act}

theorem lists_new (mem : ℕ → ℕ) : Lists (Heap.new mem) [] := ⟨rfl, nofun⟩

theorem good_nil (lo hi : ℕ) : Good lo hi [] := ⟨List.Pairwise.nil, nofun, nofun, nofun, nofun⟩

/-- Nothing is said about allocations where there are none. -/
theorem sound_idle (hlive : s.live = []) (hl : Lists s.heap l)
    (hg : Good d.start (d.start + d.size) l) : Sound d s l := by
  refine ⟨hl, hg, ?_, ?_, ?_, ?_⟩ <;> simp [hlive]

theorem sound_start (hs : Starts d s) : ∃ l, Sound d s l := by
  obtain ⟨⟨mem, hadd⟩, hlive⟩ := hs
  have hgood := good_nil d.start (d.start + d.size)
  have hstart : alignUp d.start MIN_ALIGN = d.start := by
    obtain ⟨k, hk⟩ := d.aligned
    rw [hk, alignUp, MIN_ALIGN, PAGE_SIZE]
    omega
  rw [Heap.addRegion, hstart] at hadd
  dsimp only at hadd
  by_cases hsmall : d.size < BLOCK_SIZE
  · rw [if_pos hsmall] at hadd
    exact ⟨[], sound_idle hlive (Option.some.inj hadd ▸ lists_new mem) hgood⟩
  · rw [if_neg hsmall] at hadd
    have hfits : Heap.Fits d.start (d.start + d.size) [] (d.start, d.size) :=
      ⟨Nat.dvd_trans (by decide) d.aligned, Nat.not_lt.mp hsmall, le_rfl, le_rfl,
        fun x _ _ hcov => by simp [Covers] at hcov⟩
    obtain ⟨h', hinsert, hl⟩ := Heap.insert_spec (h := { Heap.new mem with
      total := (Heap.new mem).total + d.size
      regions := if (Heap.new mem).regions.length < MAX_REGIONS then
        (Heap.new mem).regions ++ [(d.start, d.start + d.size)] else (Heap.new mem).regions })
      ⟨(lists_new mem).path, (lists_new mem).sizes⟩ hgood d.pos d.fits hfits
    rw [hinsert] at hadd
    exact ⟨_, sound_idle hlive (Option.some.inj hadd ▸ hl) (hgood.insert hfits)⟩

theorem Sound.alloc_returns (h : Sound d s l) (layout : Layout) :
    ∃ p h', s.heap.alloc layout = some (p, h') ∧ h'.total = s.heap.total ∧
      ((∀ b ∈ l, ¬Heap.takes (max layout.align MIN_ALIGN) layout.need b) ∧ p = 0 ∧ h' = s.heap ∨
        ∃ b l', l.find? (Heap.takes (max layout.align MIN_ALIGN) layout.need) = some b ∧
          p = alignUp b.1 (max layout.align MIN_ALIGN) ∧
          h'.allocated = s.heap.allocated + layout.need ∧ Lists h' l' ∧
          Heap.Takes d.start (d.start + d.size) l l' (max layout.align MIN_ALIGN) layout.need p ∧
          Heap.Leaves l l' (max layout.align MIN_ALIGN) layout.need b) := by
  obtain ⟨align, halign, hpos, hmin, -⟩ := Heap.align_cases layout
  rw [Heap.alloc, halign]
  have hhead : s.heap.head = (l.map Prod.fst).headD 0 := (h.lists.rest (l := [])).1
  rw [hhead]
  exact Heap.allocFrom_spec h.good h.lists d.pos d.fits hpos hmin
    (Heap.dvd_alignUp ..) [] l rfl (h.good.length_lt d.pos d.fits)

theorem Sound.alloc (h : Sound d s l) (hs : step s (.alloc layout) = some s') : ∃ l', Sound d s' l' := by
  obtain ⟨p, h', halloc, -, hcase⟩ := h.alloc_returns layout
  rw [step, halloc] at hs
  cases hs
  rcases hcase with ⟨-, rfl, rfl⟩ | ⟨b, l', -, -, -, hl', htakes, -⟩
  · exact ⟨l, h⟩
  · have hp : p ≠ 0 := (d.pos.trans_le htakes.from_lo).ne'
    obtain ⟨align, halign, -, hmin, hdvd⟩ := Heap.align_cases layout
    have haligned : align ∣ p := halign ▸ htakes.aligned
    refine ⟨l', ?_⟩
    show Sound d ⟨h', if p = 0 then s.live else (p, layout) :: s.live⟩ l'
    rw [if_neg hp]
    refine ⟨hl', htakes.good, ?_, ?_, ?_, List.pairwise_cons.mpr ⟨fun b hb => ?_, h.apart⟩⟩
    · exact List.forall_mem_cons.mpr
        ⟨⟨Nat.dvd_trans hdvd haligned, Nat.dvd_trans hmin haligned⟩, h.aligned⟩
    · exact List.forall_mem_cons.mpr ⟨⟨htakes.from_lo, htakes.to_hi⟩, h.inside⟩
    · refine List.forall_mem_cons.mpr ⟨fun x hx hx' hcov => (htakes.left x hcov).2 ⟨hx, hx'⟩,
        fun b hb x hx hx' hcov => h.free b hb x hx hx' (htakes.left x hcov).1⟩
    · -- what is taken was free, so it is in no live allocation
      have hneed := Heap.le_need layout
      have hneed' := Heap.le_need b.2
      unfold BLOCK_SIZE at hneed hneed'
      exact Blocks.behind_of_disjoint (b := (p, layout.need)) (c := (b.1, b.2.need)) (by dsimp only; omega)
        (by dsimp only; omega) fun x hx hx' hin => h.free b hb x hin.1 hin.2 (htakes.taken x hx hx')

theorem Sound.fits (h : Sound d s l) (hlive : (ptr, layout) ∈ s.live) :
    Heap.Fits d.start (d.start + d.size) l (ptr, layout.need) := by
  obtain ⟨hfrom, hto⟩ := h.inside _ hlive
  refine ⟨(h.aligned _ hlive).2, Heap.le_need layout, hfrom, hto, fun x => h.free _ hlive x⟩

theorem Sound.dealloc_returns (h : Sound d s l) (hlive : (ptr, layout) ∈ s.live) :
    ∃ h', s.heap.dealloc ptr layout = some h' ∧ Lists h' (Blocks.insert (ptr, layout.need) l) :=
  Heap.insert_spec (h := { s.heap with allocated := s.heap.allocated - layout.need })
    ⟨h.lists.path, h.lists.sizes⟩ h.good d.pos d.fits (h.fits hlive)

theorem Sound.dealloc (h : Sound d s l) (hs : step s (.dealloc ptr layout) = some s') :
    ∃ l', Sound d s' l' := by
  rw [step] at hs
  split_ifs at hs with hlive
  obtain ⟨h', hdealloc, hl'⟩ := h.dealloc_returns hlive
  rw [hdealloc] at hs
  cases hs
  obtain ⟨hothers, hapart⟩ := List.pairwise_cons.mp
    (((List.perm_cons_erase hlive).pairwise_iff Or.symm).mp h.apart)
  have hmem := fun b (hb : b ∈ s.live.erase (ptr, layout)) => List.mem_of_mem_erase hb
  refine ⟨_, hl', h.good.insert (h.fits hlive), fun b hb => h.aligned b (hmem b hb),
    fun b hb => h.inside b (hmem b hb), fun b hb x hx hx' hcov => ?_, hapart⟩
  rcases Blocks.covers_insert.mp hcov with hin | hcov
  · have := hothers b hb
    dsimp only at hin this
    omega
  · exact h.free b (hmem b hb) x hx hx' hcov

theorem Sound.store {addr v : ℕ} (h : Sound d s l) (hs : step s (.store addr v) = some s') :
    Sound d s' l := by
  rw [step] at hs
  split_ifs at hs with hin
  cases hs
  obtain ⟨-, b, hb, hfrom, hto⟩ := hin
  have hfree := h.free b hb addr hfrom hto
  refine ⟨h.lists.write (fun c hc => ?_) v, h.good, h.aligned, h.inside, h.free, h.apart⟩
  have hbig := h.good.big c hc
  unfold BLOCK_SIZE at hbig
  constructor <;> rintro rfl <;> exact hfree ⟨c, hc, by omega, by omega⟩

theorem Sound.step (h : Sound d s l) (hs : HeapUse.step s a = some s') : ∃ l', Sound d s' l' := by
  cases a with
  | alloc layout => exact h.alloc hs
  | dealloc ptr layout => exact h.dealloc hs
  | store addr v => exact ⟨l, h.store hs⟩

end

/-- In every history of a heap its free list is sorted and joined, the live allocations are apart from
it and from each other, and its calls return. -/
theorem heap_sound {d : Donated} {s : HeapUse} (h : Run.Reachable step Run.always (Starts d) s) :
    (∃ l, Sound d s l) ∧ (∀ layout, (s.heap.alloc layout).isSome) ∧
      ∀ a ∈ s.live, (s.heap.dealloc a.1 a.2).isSome := by
  have hsound : ∃ l, Sound d s l :=
    h.invariant (fun s => ∃ l, Sound d s l) (fun _ => sound_start) fun _ _ _ ⟨_, hi⟩ _ hs => hi.step hs
  obtain ⟨l, hl⟩ := hsound
  refine ⟨⟨l, hl⟩, fun layout => ?_, fun a ha => ?_⟩
  · obtain ⟨p, h', halloc, -⟩ := hl.alloc_returns layout
    rw [halloc]
    rfl
  · obtain ⟨h', hdealloc, -⟩ := hl.dealloc_returns (show (a.1, a.2) ∈ s.live from ha)
    rw [hdealloc]
    rfl

/-- A page at the start of the linear map's upper half. -/
def onePage : Donated := ⟨0xFFFF000040000000, 0x1000, by decide, by decide, by decide⟩

theorem heap_sound_onePage : ∃ s, s.live.map Prod.fst = [0xFFFF000040000040] ∧
    (∃ l, Sound onePage s l) := by
  have hrun : (((Heap.new fun _ => 0).addRegion onePage.start onePage.size).bind fun heap =>
      Run.exec step ⟨heap, []⟩ [.alloc ⟨24, 8, ⟨3, rfl⟩, by decide⟩, .alloc ⟨100, 64, ⟨6, rfl⟩, by decide⟩,
        .dealloc 0xFFFF000040000000 ⟨24, 8, ⟨3, rfl⟩, by decide⟩]).map (·.live.map Prod.fst) =
      some [0xFFFF000040000040] := by decide
  obtain ⟨s, hs, hlive⟩ := Option.map_eq_some_iff.mp hrun
  obtain ⟨heap, hadd, hexec⟩ := Option.bind_eq_some_iff.mp hs
  exact ⟨s, hlive, (heap_sound (Run.reachable_of_exec ⟨⟨_, hadd⟩, rfl⟩ hexec)).1⟩

end HeapUse

end JungeyOs.Mm
