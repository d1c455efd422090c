import JungeyOs.Lib.Radix
import JungeyOs.Mm.Frames
import Mathlib.Data.Finset.Card
import Mathlib.Data.Finset.Union
import Mathlib.Data.Nat.Find
import Mathlib.Data.UInt

/-!
# Address spaces

Models of `AddressSpace` (`kernel/src/mm/paging.rs`, lines 18–212): page tables of four levels in
frames of physical memory, built on demand. The frame allocator is any source of frames that are
not in use, and memory off the tables may change at any time.

Results:
* `Paged.entryFrom_spec`: the walk to an entry hangs blank tables into the tree where it needs them.
* `Paged.map_spec`, `Paged.mapAnonymous_spec`, `Paged.unmap_spec`: what a call does to the descriptors
  of the pages, and when it gets through.
-/

namespace JungeyOs.Mm

open Radix (walk along find Reaches Tree write)

/-! ## Descriptors -/

def PTE_VALID : UInt64 := (1 : UInt64) <<< 0
def PTE_TABLE_OR_PAGE : UInt64 := (1 : UInt64) <<< 1
def PTE_ATTR_NORMAL : UInt64 := (1 : UInt64) <<< 2
def PTE_AP_EL0 : UInt64 := (1 : UInt64) <<< 6
def PTE_AP_RO : UInt64 := (1 : UInt64) <<< 7
def PTE_SH_INNER : UInt64 := (3 : UInt64) <<< 8
def PTE_AF : UInt64 := (1 : UInt64) <<< 10
def PTE_NG : UInt64 := (1 : UInt64) <<< 11
def PTE_PXN : UInt64 := (1 : UInt64) <<< 53
def PTE_UXN : UInt64 := (1 : UInt64) <<< 54

def ADDR_MASK : UInt64 := 0x0000_FFFF_FFFF_F000

/-- `Perm` (lines 37–48). -/
inductive Perm
  | UserText
  | UserReadOnly
  | UserData
  | UserDevice
  deriving DecidableEq

/-- `Perm::bits` (lines 51–64). -/
def Perm.bits (perm : Perm) : UInt64 :=
  let common := PTE_VALID ||| PTE_TABLE_OR_PAGE ||| PTE_ATTR_NORMAL ||| PTE_SH_INNER ||| PTE_AF |||
    PTE_NG ||| PTE_AP_EL0 ||| PTE_PXN
  match perm with
  | .UserText => common ||| PTE_AP_RO
  | .UserReadOnly => common ||| PTE_AP_RO ||| PTE_UXN
  | .UserData => common ||| PTE_UXN
  | .UserDevice => (common &&& ~~~PTE_ATTR_NORMAL &&& ~~~PTE_SH_INNER) ||| PTE_UXN

/-- `index` (lines 67–69). -/
def index (va level : ℕ) : Fin 512 :=
  ⟨(va >>> (39 - level * 9)) &&& 0x1ff, by
    rw [show 0x1ff = 2 ^ 9 - 1 from rfl, Nat.and_two_pow_sub_one_eq_mod]
    exact Nat.mod_lt _ (by decide)⟩

/-- A descriptor, if it is valid. -/
def valid (e : UInt64) : Option UInt64 := if e &&& PTE_VALID = 0 then none else some e

/-- What a descriptor points to, if it is valid. -/
def target (e : UInt64) : Option ℕ :=
  if e &&& PTE_VALID = 0 then none else some (e &&& ADDR_MASK).toNat

/-! ## The model -/

/-- The words of each frame of physical memory. -/
abbrev Words := ℕ → Fin 512 → UInt64

/-- `AddressSpace` (lines 81–86). The ASID only selects TLB entries. -/
structure AddressSpace where
  root : ℕ
  owned : List ℕ

/-- `supply` are the frames that `frames::alloc` hands out next. Of the frames that a space owns,
`anon` are those that `map_anonymous` has allocated. -/
structure Paged where
  mem : Words
  supply : List ℕ
  space : AddressSpace
  anon : List ℕ

namespace Paged

/-- `frames::alloc`, and the frame is zeroed (lines 73–74 and 144–145). -/
def allocZeroed (s : Paged) : Option (ℕ × Paged) :=
  match s.supply with
  | [] => none
  | pa :: supply => some (pa, { s with supply := supply, mem := Function.update s.mem pa fun _ => 0 })

/-- The loop of `entry_for` (lines 114–122): the table of level 3, with `left` levels to go. -/
def entryFrom (va : ℕ) : (left level table : ℕ) → Paged → Option ℕ × Paged
  | 0, _, table, s => (some table, s)
  | left + 1, level, table, s =>
    let e := s.mem table (index va level)
    if e &&& PTE_VALID = 0 then
      match s.allocZeroed with
      | none => (none, s)
      | some (next, s) =>
        let e := next.toUInt64 ||| PTE_VALID ||| PTE_TABLE_OR_PAGE
        entryFrom va left (level + 1) (e &&& ADDR_MASK).toNat
          { s with
            space := { s.space with owned := s.space.owned ++ [next] }
            mem := write s.mem table (index va level) e }
    else entryFrom va left (level + 1) (e &&& ADDR_MASK).toNat s

/-- `entry_for` (lines 112–124): the entry is entry `index va 3` of the table. -/
def entryFor (s : Paged) (va : ℕ) : Option ℕ × Paged := entryFrom va 3 0 s.space.root s

/-- The loop of `map` (lines 131–136) from page `i` on. -/
def mapFrom (va pa : ℕ) (bits : UInt64) : (n i : ℕ) → Paged → Except String Unit × Paged
  | 0, _, s => (.ok (), s)
  | n + 1, i, s =>
    match s.entryFor (va + i * PAGE_SIZE) with
    | (none, s) => (.error "out of frames for page tables", s)
    | (some table, s) =>
      mapFrom va pa bits n (i + 1)
        { s with
          mem := write s.mem table (index (va + i * PAGE_SIZE) 3)
            ((pa + i * PAGE_SIZE).toUInt64 ||| bits) }

/-- `map` (lines 127–139). -/
def map (s : Paged) (va pa pages : ℕ) (perm : Perm) : Except String Unit × Paged :=
  if va % PAGE_SIZE ≠ 0 ∨ pa % PAGE_SIZE ≠ 0 then (.error "unaligned mapping", s)
  else mapFrom va pa perm.bits pages 0 s

/-- The loop of `map_anonymous` (lines 143–148) from page `i` on. -/
def mapAnonymousFrom (va : ℕ) (perm : Perm) : (n i : ℕ) → Paged → Except String Unit × Paged
  | 0, _, s => (.ok (), s)
  | n + 1, i, s =>
    match s.allocZeroed with
    | none => (.error "out of frames", s)
    | some (frame, s) =>
      let s := { s with
        space := { s.space with owned := s.space.owned ++ [frame] }
        anon := s.anon ++ [frame] }
      match s.map (va + i * PAGE_SIZE) frame 1 perm with
      | (.error e, s) => (.error e, s)
      | (.ok (), s) => mapAnonymousFrom va perm n (i + 1) s

/-- `map_anonymous` (lines 142–150). -/
def mapAnonymous (s : Paged) (va pages : ℕ) (perm : Perm) : Except String Unit × Paged :=
  mapAnonymousFrom va perm pages 0 s

/-- The walk of `unmap` and `translate` (lines 160–167 and 177–184): the table of level 3. -/
def walkFrom (mem : Words) (va : ℕ) : (left level table : ℕ) → Option ℕ
  | 0, _, table => some table
  | left + 1, level, table =>
    let e := mem table (index va level)
    if e &&& PTE_VALID = 0 then none
    else walkFrom mem va left (level + 1) (e &&& ADDR_MASK).toNat

/-- The loop of `unmap` (lines 156–171) from page `i` on. -/
def unmapFrom (va : ℕ) : (n i : ℕ) → Paged → Paged
  | 0, _, s => s
  | n + 1, i, s =>
    let addr := va + i * PAGE_SIZE
    match walkFrom s.mem addr 3 0 s.space.root with
    | none => unmapFrom va n (i + 1) s
    | some table => unmapFrom va n (i + 1) { s with mem := write s.mem table (index addr 3) 0 }

/-- `unmap` (lines 155–173). -/
def unmap (s : Paged) (va pages : ℕ) : Paged := unmapFrom va pages 0 s

/-- `translate` (lines 176–190). -/
def translate (s : Paged) (va : ℕ) : Option ℕ :=
  match walkFrom s.mem va 3 0 s.space.root with
  | none => none
  | some table =>
    let e := s.mem table (index va 3)
    if e &&& PTE_VALID = 0 then none
    else some ((e &&& ADDR_MASK).toNat ||| (va &&& (PAGE_SIZE - 1)))

end Paged

/-- `AddressSpace::new` (lines 89–96). -/
def Paged.create (mem : Words) (supply : List ℕ) : Option Paged :=
  match supply with
  | [] => none
  | root :: supply => some
    { mem := Function.update mem root fun _ => 0
      supply := supply
      space := { root := root, owned := [root] }
      anon := [] }

/-- `drop` (lines 206–212): the owned frames go back to the allocator one by one. -/
def AddressSpace.drop (sp : AddressSpace) (fr : Frames) (mem : Memory) : Frames × Memory :=
  sp.owned.foldl (fun x f => x.1.free x.2 f) (fr, mem)

/-! ## Descriptors and addresses -/

/-- The mask keeps bits 12 to 47. -/
theorem land_mask (x : ℕ) : x &&& ADDR_MASK.toNat = x % 2 ^ 48 / 2 ^ 12 * 2 ^ 12 := by
  refine Nat.eq_of_testBit_eq fun i => ?_
  rw [show ADDR_MASK.toNat = (2 ^ 36 - 1) * 2 ^ 12 from rfl, Nat.testBit_and,
    Nat.testBit_mul_two_pow, Nat.testBit_mul_two_pow, Nat.testBit_div_two_pow,
    Nat.testBit_mod_two_pow, Nat.testBit_two_pow_sub_one]
  by_cases h : 12 ≤ i
  · have hi : i - 12 + 12 = i := by omega
    rw [decide_eq_true h, hi, Bool.true_and, Bool.true_and, Bool.and_comm]
    congr 1
    exact decide_eq_decide.mpr (by omega)
  · rw [decide_eq_false h, Bool.false_and, Bool.false_and, Bool.and_false]

theorem dvd_mask (e : UInt64) : PAGE_SIZE ∣ (e &&& ADDR_MASK).toNat := by
  rw [UInt64.toNat_and, land_mask]
  exact Nat.dvd_mul_left ..

theorem or_land (a b c : UInt64) : (a ||| b) &&& c = a &&& c ||| b &&& c := by
  apply UInt64.toBitVec_inj.mp
  simp only [UInt64.toBitVec_and, UInt64.toBitVec_or]
  exact BitVec.and_or_distrib_right

/-- A bit that is set stays set. -/
theorem or_land_ne_zero {b c : UInt64} (a : UInt64) (h : b &&& c ≠ 0) : (a ||| b) &&& c ≠ 0 := by
  intro hzero
  rw [or_land] at hzero
  exact h (UInt64.or_eq_zero_iff.mp hzero).2

/-- The address of a page is all in the mask. -/
theorem page_land_mask {p : ℕ} (hdvd : PAGE_SIZE ∣ p) (hlt : p < 2 ^ 48) :
    p.toUInt64 &&& ADDR_MASK = p.toUInt64 := by
  have hp : p.toUInt64.toNat = p := Nat.mod_eq_of_lt (hlt.trans (by decide))
  obtain ⟨k, rfl⟩ := hdvd
  apply UInt64.toNat_inj.mp
  rw [UInt64.toNat_and, hp, land_mask, Nat.mod_eq_of_lt hlt]
  show 4096 * k / 2 ^ 12 * 2 ^ 12 = 4096 * k
  omega

theorem target_or {p : ℕ} {b : UInt64} (hdvd : PAGE_SIZE ∣ p) (hlt : p < 2 ^ 48)
    (hvalid : b &&& PTE_VALID ≠ 0) (hbits : b &&& ADDR_MASK = 0) :
    target (p.toUInt64 ||| b) = some p := by
  have hp : p.toUInt64.toNat = p := Nat.mod_eq_of_lt (hlt.trans (by decide))
  rw [target, if_neg (or_land_ne_zero _ hvalid), or_land, hbits, page_land_mask hdvd hlt,
    UInt64.or_zero, hp]

theorem target_table {p : ℕ} (hdvd : PAGE_SIZE ∣ p) (hlt : p < 2 ^ 48) :
    target (p.toUInt64 ||| PTE_VALID ||| PTE_TABLE_OR_PAGE) = some p := by
  rw [UInt64.or_assoc]
  exact target_or hdvd hlt (by decide) (by decide)

theorem target_page {p : ℕ} (hdvd : PAGE_SIZE ∣ p) (hlt : p < 2 ^ 48) (perm : Perm) :
    target (p.toUInt64 ||| perm.bits) = some p := by
  refine target_or hdvd hlt ?_ ?_ <;> cases perm <;> decide

theorem target_zero : target 0 = none := rfl

theorem target_eq (e : UInt64) : target e = (valid e).map fun e => (e &&& ADDR_MASK).toNat := by
  unfold target valid
  split_ifs <;> rfl

theorem valid_page (pa : UInt64) (perm : Perm) : valid (pa ||| perm.bits) = some (pa ||| perm.bits) := by
  have hperm : perm.bits &&& PTE_VALID ≠ 0 := by cases perm <;> decide
  exact if_neg (or_land_ne_zero pa hperm)

theorem dvd_target {e : UInt64} {f : ℕ} (h : target e = some f) : PAGE_SIZE ∣ f := by
  unfold target at h
  split_ifs at h
  cases h
  exact dvd_mask e

/-- The offset in the page is added to an aligned address. -/
theorem lor_offset {f : ℕ} (hdvd : PAGE_SIZE ∣ f) (va : ℕ) :
    f ||| (va &&& (PAGE_SIZE - 1)) = f + va % PAGE_SIZE := by
  obtain ⟨k, rfl⟩ := hdvd
  have hmod : va &&& (PAGE_SIZE - 1) = va % PAGE_SIZE := Nat.and_two_pow_sub_one_eq_mod va 12
  rw [hmod]
  exact (Nat.two_pow_add_eq_or_of_lt (i := 12) (Nat.mod_lt va (by norm_num)) k).symm

/-- The path from the root to the table of level 3. -/
def path (va : ℕ) : List (Fin 512) := [index va 0, index va 1, index va 2]

theorem val_index (va level : ℕ) : (index va level : ℕ) = va / 2 ^ (39 - level * 9) % 512 := by
  show (va >>> (39 - level * 9)) &&& (2 ^ 9 - 1) = _
  rw [Nat.and_two_pow_sub_one_eq_mod, Nat.shiftRight_eq_div_pow]

/-- The page of an address: `index` ignores the bits above 47. -/
def pageOf (va : ℕ) : ℕ := va / PAGE_SIZE % 2 ^ 36

/-- Addresses lead to the same entry exactly when they are in the same page. -/
theorem same_entry {v w : ℕ} : path v = path w ∧ index v 3 = index w 3 ↔ pageOf v = pageOf w := by
  have hpage : PAGE_SIZE = 4096 := rfl
  simp only [path, List.cons.injEq, and_true, Fin.ext_iff, val_index, pageOf, hpage]
  omega

theorem pageOf_of_lt {va : ℕ} (h : va < 2 ^ 48) : pageOf va = va / PAGE_SIZE := by
  have hpage : PAGE_SIZE = 4096 := rfl
  rw [pageOf, hpage]
  exact Nat.mod_eq_of_lt (by omega)

theorem pageOf_add {va j : ℕ} (h : va + j * PAGE_SIZE < 2 ^ 48) :
    pageOf (va + j * PAGE_SIZE) = va / PAGE_SIZE + j := by
  rw [pageOf_of_lt h]
  exact Nat.add_mul_div_right _ _ (by decide)

theorem page_lt {va pages j : ℕ} (h : va + pages * PAGE_SIZE ≤ 2 ^ 48) (hj : j < pages) :
    va + j * PAGE_SIZE < 2 ^ 48 := by
  have hlt := Nat.mul_lt_mul_of_pos_right hj PAGE_SIZE_pos
  omega

/-! ## The tree of tables -/

namespace Paged

/-- The space owns its tables and the frames that it has allocated, each once. -/
structure Inv (s : Paged) : Prop where
  tree : Tree target s.mem s.space.root 3
  owned : ∀ f, f ∈ s.space.owned ↔ Reaches target s.mem s.space.root 3 f ∨ f ∈ s.anon
  apart : ∀ f ∈ s.anon, ¬Reaches target s.mem s.space.root 3 f
  once : s.space.owned.Nodup

/-- The frames to be handed out are frames, and nobody's. -/
structure Fresh (s : Paged) : Prop where
  aligned : ∀ f ∈ s.supply, PAGE_SIZE ∣ f
  low : ∀ f ∈ s.supply, f < 2 ^ 48
  notOwned : ∀ f ∈ s.supply, f ∉ s.space.owned
  once : s.supply.Nodup

/-- What the tables give for a page, if anything. -/
def lookup (s : Paged) (va : ℕ) : Option ℕ :=
  find target target s.mem s.space.root (path va) (index va 3)

/-- The descriptor of a page, if it is mapped. -/
def leaf (s : Paged) (va : ℕ) : Option UInt64 :=
  find target valid s.mem s.space.root (path va) (index va 3)

/-- Those of the tables that the space does not have. -/
def lacks (s : Paged) (paths : List (List (Fin 512))) : List (List (Fin 512)) :=
  paths.filter fun q => walk target s.mem s.space.root q = none

/-- The tables on the way to the entry of an address, by their paths. -/
def tables (va : ℕ) : List (List (Fin 512)) := along [] (path va)

/-- The tables that the space does not have for the first `n` pages of a range. -/
def lacking (s : Paged) (va n : ℕ) : Finset (List (Fin 512)) :=
  (Finset.range n).biUnion fun i => (s.lacks (tables (va + i * PAGE_SIZE))).toFinset

/-- How many of the pages of a range can be entered: the allocator has the tables for them, and
`cost` more frames for each. -/
def room (s : Paged) (cost va pages : ℕ) : ℕ :=
  Nat.findGreatest (fun n => (s.lacking va n).card + cost * n ≤ s.supply.length) pages

/-- Frames of the supply have become tables or were allocated; `new` are the latter. They are zero,
and those that were allocated before are as they were. -/
structure Takes (s s' : Paged) (new : List ℕ) : Prop where
  inv : Inv s'
  fresh : Fresh s'
  root : s'.space.root = s.space.root
  anon : s'.anon = s.anon ++ new
  supply : ∀ f ∈ s'.supply, f ∈ s.supply
  owned : ∀ f ∈ s'.space.owned, f ∈ s.space.owned ∨ f ∈ s.supply
  taken : ∀ f ∈ new, f ∈ s.supply
  once : new.Nodup
  kept : ∀ f ∈ s.anon, s'.mem f = s.mem f
  zeroed : ∀ f ∈ new, s'.mem f = fun _ => 0

section

variable {s s' s'' : Paged} {p : List (Fin 512)} {t next va level left : ℕ} {i : Fin 512}
  {supply anon anon' : List ℕ}

theorem Takes.refl (h : Inv s) (hf : Fresh s) : Takes s s [] :=
  ⟨h, hf, rfl, (List.append_nil _).symm, fun _ hf => hf, fun _ hf => .inl hf, nofun, List.nodup_nil,
    fun _ _ => rfl, nofun⟩

theorem Inv.owned_of_anon (h : Inv s) {f : ℕ} (hf : f ∈ s.anon) : f ∈ s.space.owned :=
  (h.owned f).mpr (.inr hf)

theorem Takes.trans (h : Takes s s' anon) (h' : Takes s' s'' anon') :
    Takes s s'' (anon ++ anon') := by
  have hold : ∀ f ∈ s.anon, f ∈ s'.anon := fun f hf => h.anon ▸ List.mem_append_left _ hf
  have hnew : ∀ f ∈ anon, f ∈ s'.anon := fun f hf => h.anon ▸ List.mem_append_right _ hf
  refine ⟨h'.inv, h'.fresh, h'.root.trans h.root, ?_, fun f hf => h.supply f (h'.supply f hf),
    fun f hf => ?_, fun f hf => ?_, ?_, fun f hf => ?_, fun f hf => ?_⟩
  · rw [h'.anon, h.anon, List.append_assoc]
  · rcases h'.owned f hf with hf | hf
    · exact h.owned f hf
    · exact .inr (h.supply f hf)
  · rcases List.mem_append.mp hf with hf | hf
    · exact h.taken f hf
    · exact h.supply f (h'.taken f hf)
  · refine List.nodup_append.mpr ⟨h.once, h'.once, fun f hf g hg => ?_⟩
    rintro rfl
    exact h.fresh.notOwned f (h'.taken f hg) (h.inv.owned_of_anon (hnew f hf))
  · rw [h'.kept f (hold f hf), h.kept f hf]
  · rcases List.mem_append.mp hf with hf | hf
    · rw [h'.kept f (hnew f hf), h.zeroed f hf]
    · exact h'.zeroed f hf

theorem Fresh.off (h : Inv s) (hf : Fresh s) {f : ℕ} (hmem : f ∈ s.supply) :
    ¬Reaches target s.mem s.space.root 3 f :=
  fun hr => hf.notOwned f hmem ((h.owned f).mpr (.inl hr))

/-- The first frame of the supply becomes the space's. -/
theorem Fresh.take (hf : Fresh s) (hs : s.supply = next :: supply) (mem : Words) (anon : List ℕ) :
    Fresh { mem := mem, supply := supply, anon := anon,
            space := { s.space with owned := s.space.owned ++ [next] } } := by
  obtain ⟨haligned, hlow, hnot, honce⟩ := hf
  rw [hs] at haligned hlow hnot honce
  obtain ⟨hnext, honce⟩ := List.nodup_cons.mp honce
  refine ⟨fun f hf => haligned f (.tail _ hf), fun f hf => hlow f (.tail _ hf), fun f hf hmem => ?_,
    honce⟩
  rcases List.mem_append.mp hmem with hmem | hmem
  · exact hnot f (.tail _ hf) hmem
  · exact hnext (List.mem_singleton.mp hmem ▸ hf)

theorem nodup_take (h : Inv s) (hf : Fresh s) (hs : s.supply = next :: supply) :
    (s.space.owned ++ [next]).Nodup := by
  have hnot := hf.notOwned next (hs ▸ List.mem_cons_self)
  exact List.nodup_append.mpr ⟨h.once, List.nodup_singleton _, fun f hf g hg => by
    rintro rfl
    exact hnot (List.mem_singleton.mp hg ▸ hf)⟩

/-- A blank table is hung into the tree. -/
theorem Inv.hang (h : Inv s) (hf : Fresh s) (hp : p.length < 3)
    (hpt : walk target s.mem s.space.root p = some t) (hempty : target (s.mem t i) = none)
    (hs : s.supply = next :: supply) :
    let e := next.toUInt64 ||| PTE_VALID ||| PTE_TABLE_OR_PAGE
    let s' : Paged :=
      { s with
        supply := supply
        space := { s.space with owned := s.space.owned ++ [next] }
        mem := write (Function.update s.mem next fun _ => 0) t i e }
    Takes s s' [] ∧ (∀ q : List (Fin 512), q.length ≤ 3 → walk target s'.mem s.space.root q =
      if q = p ++ [i] then some next else walk target s.mem s.space.root q) ∧
        ∀ va, s'.leaf va = s.leaf va := by
  intro e s'
  have hmem : next ∈ s.supply := hs ▸ List.mem_cons_self
  have hoff := hf.off h hmem
  have hg : Radix.Grows target s.mem s.space.root 3 p t next i 0 e :=
    ⟨hp, hpt, hempty, hoff, target_zero, target_table (hf.aligned next hmem) (hf.low next hmem)⟩
  have hreaches : ∀ f, Reaches target s'.mem s.space.root 3 f ↔
      f = next ∨ Reaches target s.mem s.space.root 3 f := fun f => Radix.reaches_grow h.tree hg
  refine ⟨⟨⟨h.tree.grow hg, fun f => ?_, fun f hanon hr => ?_, nodup_take h hf hs⟩, hf.take hs _ _, rfl,
    (List.append_nil _).symm, fun f hf => hs ▸ .tail _ hf, fun f hf => ?_, nofun, List.nodup_nil,
    fun f hanon => ?_, nofun⟩, fun q hq => ?_, fun va => ?_⟩
  · show f ∈ s.space.owned ++ [next] ↔ Reaches target s'.mem s.space.root 3 f ∨ f ∈ s.anon
    rw [List.mem_append, List.mem_singleton, h.owned, hreaches]
    tauto
  · rcases (hreaches f).mp hr with rfl | hr
    · exact hf.notOwned f hmem ((h.owned f).mpr (.inr hanon))
    · exact h.apart f hanon hr
  · rcases List.mem_append.mp hf with hf | hf
    · exact .inl hf
    · exact .inr (List.mem_singleton.mp hf ▸ hmem)
  · have hnext : f ≠ next := fun heq => hf.notOwned next hmem (heq ▸ h.owned_of_anon hanon)
    have ht : f ≠ t := fun heq => h.apart f hanon (heq ▸ ⟨p, hp.le, hpt⟩)
    show Function.update (Function.update s.mem next fun _ => 0) t _ f = s.mem f
    rw [Function.update_of_ne ht, Function.update_of_ne hnext]
  · exact Radix.walk_grow h.tree hg hq
  · exact Radix.find_grow h.tree hg rfl rfl

/-- The walk to an entry: it leads along the path, hangs blank tables into the tree where it needs
them and as long as there are any, and maps nothing. -/
structure Walks (s s' : Paged) (p rest : List (Fin 512)) (r : Option ℕ) : Prop where
  takes : Takes s s' []
  leaf : ∀ va, s'.leaf va = s.leaf va
  isSome : r.isSome ↔ (s.lacks (along p rest)).length ≤ s.supply.length
  leads : ∀ t, r = some t → walk target s'.mem s'.space.root (p ++ rest) = some t
  supply : r.isSome → s'.supply = s.supply.drop (s.lacks (along p rest)).length
  absent : r.isSome → ∀ q : List (Fin 512), q.length ≤ 3 →
    (walk target s'.mem s'.space.root q = none ↔
      walk target s.mem s.space.root q = none ∧ q ∉ along p rest)

theorem not_mem_along (p rest : List (Fin 512)) : p ∉ along p rest :=
  fun hmem => absurd (Radix.length_of_mem_along hmem).1 (lt_irrefl _)

/-- The table of the next level is there. -/
theorem Walks.present {rest : List (Fin 512)} {r : Option ℕ}
    (hnext : walk target s.mem s.space.root (p ++ [i]) = some t) (hw : Walks s s' (p ++ [i]) rest r) :
    Walks s s' p (i :: rest) r := by
  have hlacks : s.lacks (along p (i :: rest)) = s.lacks (along (p ++ [i]) rest) := by
    refine List.filter_cons_of_neg ?_
    rw [hnext, decide_eq_true_iff]
    exact Option.some_ne_none _
  refine ⟨hw.takes, hw.leaf, ?_, fun t ht => ?_, fun hr => ?_, fun hr q hq => ?_⟩
  · rw [hlacks]
    exact hw.isSome
  · rw [List.append_cons]
    exact hw.leads t ht
  · rw [hlacks]
    exact hw.supply hr
  · rw [hw.absent hr q hq, along, List.mem_cons, not_or]
    refine and_congr_right fun hq' => (and_iff_right ?_).symm
    rintro rfl
    rw [hnext] at hq'
    cases hq'

/-- The table of the next level has been taken from the supply. -/
theorem Walks.hung {rest : List (Fin 512)} {r : Option ℕ}
    (hnone : walk target s.mem s.space.root (p ++ [i]) = none) (hs : s.supply = next :: s'.supply)
    (hlen : p.length + 1 + rest.length ≤ 3) (htakes : Takes s s' [])
    (hgrown : ∀ q : List (Fin 512), q.length ≤ 3 → walk target s'.mem s.space.root q =
      if q = p ++ [i] then some next else walk target s.mem s.space.root q)
    (hsame : ∀ va, s'.leaf va = s.leaf va) (hw : Walks s' s'' (p ++ [i]) rest r) :
    Walks s s'' p (i :: rest) r := by
  have hroot : s'.space.root = s.space.root := htakes.root
  -- the tables further down are lacking as before
  have hlacks' : s'.lacks (along (p ++ [i]) rest) = s.lacks (along (p ++ [i]) rest) := by
    refine List.filter_congr fun q hq => ?_
    have hqlen := (Radix.length_of_mem_along hq).2
    rw [List.length_append, List.length_singleton] at hqlen
    have hne : q ≠ p ++ [i] := fun heq => not_mem_along _ _ (heq ▸ hq)
    rw [hroot, hgrown q (by omega), if_neg hne]
  have hlacks : s.lacks (along p (i :: rest)) = (p ++ [i]) :: s'.lacks (along (p ++ [i]) rest) := by
    rw [hlacks']
    exact List.filter_cons_of_pos (decide_eq_true hnone)
  refine ⟨htakes.trans hw.takes, fun v => (hw.leaf v).trans (hsame v), ?_, fun t ht => ?_, fun hr => ?_,
    fun hr q hq => ?_⟩
  · rw [hw.isSome, hlacks, hs, List.length_cons, List.length_cons]
    exact Nat.succ_le_succ_iff.symm
  · rw [List.append_cons]
    exact hw.leads t ht
  · rw [hw.supply hr, hlacks, hs]
    rfl
  · rw [hw.absent hr q hq, along, List.mem_cons, not_or, hroot, hgrown q hq]
    split_ifs with hqp
    · simp [hqp]
    · simp [hqp]

theorem entryFrom_spec : ∀ {level table : ℕ} {s : Paged} {p : List (Fin 512)} {r : Option ℕ}, Inv s →
    Fresh s → p.length = level → level + left = 3 → walk target s.mem s.space.root p = some table →
    entryFrom va left level table s = (r, s') →
      Walks s s' p ((List.range' level left).map (index va)) r := by
  induction left with
  | zero =>
    intro level table s p r h hf _ _ hwalk he
    cases he
    rw [List.range'_zero, List.map_nil]
    refine ⟨.refl h hf, fun _ => rfl, ?_, fun t ht => ?_, fun _ => rfl, fun _ q _ => ?_⟩
    · exact ⟨fun _ => Nat.zero_le _, fun _ => rfl⟩
    · cases ht
      rwa [List.append_nil]
    · exact (and_iff_left List.not_mem_nil).symm
  | succ left ih =>
    intro level table s p r h hf hp hlevel hwalk he
    rw [List.range'_succ, List.map_cons]
    have hlen : (p ++ [index va level]).length = level + 1 := by
      rw [List.length_append, hp]
      rfl
    have hstep : walk target s.mem s.space.root (p ++ [index va level]) =
        target (s.mem table (index va level)) := by
      rw [Radix.walk_concat, hwalk]
      rfl
    rw [entryFrom] at he
    by_cases hempty : s.mem table (index va level) &&& PTE_VALID = 0
    · rw [if_pos hempty] at he
      have htarget : target (s.mem table (index va level)) = none := if_pos hempty
      have hnone := hstep.trans htarget
      cases hs : s.supply with
      | nil =>
        have hlacks : s.lacks (along p (index va level :: (List.range' (level + 1) left).map (index va))) =
            (p ++ [index va level]) :: s.lacks (along (p ++ [index va level]) _) :=
          List.filter_cons_of_pos (decide_eq_true hnone)
        rw [allocZeroed, hs] at he
        cases he
        refine ⟨.refl h hf, fun _ => rfl, ?_, nofun, nofun, nofun⟩
        rw [hs, hlacks]
        exact ⟨nofun, nofun⟩
      | cons next supply =>
        rw [allocZeroed, hs] at he
        dsimp only at he
        obtain ⟨htakes, hgrown, hsame⟩ := h.hang hf (by omega) hwalk htarget hs
        have hmem : next ∈ s.supply := hs ▸ List.mem_cons_self
        have haddr := target_table (hf.aligned next hmem) (hf.low next hmem)
        rw [target] at haddr
        split_ifs at haddr
        rw [Option.some.inj haddr] at he
        have hnew := hgrown (p ++ [index va level]) (by omega)
        rw [if_pos rfl] at hnew
        refine .hung hnone hs ?_ htakes hgrown hsame
          (ih htakes.inv htakes.fresh hlen (by omega) hnew he)
        rw [List.length_map, List.length_range']
        omega
    · rw [if_neg hempty] at he
      have hnext := hstep.trans (if_neg hempty)
      exact .present hnext (ih h hf hlen (by omega) hnext he)

theorem entryFor_spec {r : Option ℕ} (h : Inv s) (hf : Fresh s) (he : s.entryFor va = (r, s')) :
    Walks s s' [] (path va) r := entryFrom_spec (p := []) h hf rfl rfl rfl he

/-- An entry of level 3 is written. -/
theorem Inv.writeEntry (h : Inv s) (hf : Fresh s)
    (hwalk : walk target s.mem s.space.root (path va) = some t) (e : UInt64) :
    let s' : Paged := { s with mem := write s.mem t (index va 3) e }
    Takes s s' [] ∧ (∀ q : List (Fin 512), q.length ≤ 3 →
      walk target s'.mem s.space.root q = walk target s.mem s.space.root q) ∧
        ∀ v, s'.leaf v = if pageOf v = pageOf va then valid e else s.leaf v := by
  intro s'
  have hsame : ∀ q : List (Fin 512), q.length ≤ 3 →
      walk target s'.mem s.space.root q = walk target s.mem s.space.root q :=
    fun q hq => Radix.walk_write h.tree rfl hwalk e hq
  have hreaches : ∀ f, Reaches target s'.mem s.space.root 3 f ↔ Reaches target s.mem s.space.root 3 f :=
    fun f => Radix.reaches_congr hsame
  refine ⟨⟨⟨h.tree.congr hsame, fun f => ?_, fun f hanon hr => ?_, h.once⟩,
    ⟨hf.aligned, hf.low, hf.notOwned, hf.once⟩, rfl, (List.append_nil _).symm, fun _ hf => hf,
    fun _ hf => .inl hf, nofun, List.nodup_nil, fun f hanon => ?_, nofun⟩, hsame, fun v => ?_⟩
  · rw [hreaches]
    exact h.owned f
  · exact h.apart f hanon ((hreaches f).mp hr)
  · have ht : f ≠ t := fun heq => h.apart f hanon (heq ▸ ⟨path va, le_rfl, hwalk⟩)
    exact Function.update_of_ne ht _ _
  · split_ifs with hpage
    · obtain ⟨hpath, hindex⟩ := same_entry.mpr hpage
      rw [leaf, hpath, hindex]
      exact Radix.find_write_self h.tree rfl hwalk e
    · refine Radix.find_write_of_ne h.tree rfl hwalk e le_rfl fun hsame => hpage ?_
      exact same_entry.mp hsame

theorem lookup_eq (s : Paged) (va : ℕ) :
    s.lookup va = (s.leaf va).map fun e => (e &&& ADDR_MASK).toNat := by
  unfold lookup leaf find
  cases walk target s.mem s.space.root (path va) with
  | none => rfl
  | some t => exact target_eq _

/-- Pages with the same entry have the same descriptor. -/
theorem leaf_congr {v w : ℕ} (h : pageOf v = pageOf w) : s.leaf v = s.leaf w := by
  obtain ⟨hpath, hindex⟩ := same_entry.mpr h
  rw [leaf, leaf, hpath, hindex]

/-! ## The tables that a page needs -/

theorem mem_lacking {q : List (Fin 512)} {n : ℕ} : q ∈ s.lacking va n ↔
    (∃ i < n, q ∈ tables (va + i * PAGE_SIZE)) ∧ walk target s.mem s.space.root q = none := by
  simp only [lacking, lacks, Finset.mem_biUnion, Finset.mem_range, List.mem_toFinset, List.mem_filter,
    decide_eq_true_eq]
  constructor
  · rintro ⟨i, hi, hq, hnone⟩
    exact ⟨⟨i, hi, hq⟩, hnone⟩
  · rintro ⟨⟨i, hi, hq⟩, hnone⟩
    exact ⟨i, hi, hq, hnone⟩

theorem card_lacks (s : Paged) (va : ℕ) :
    (s.lacks (tables va)).toFinset.card = (s.lacks (tables va)).length :=
  List.toFinset_card_of_nodup (Radix.nodup_along.filter _)

theorem length_of_mem_tables {q : List (Fin 512)} (h : q ∈ tables va) : q.length ≤ 3 :=
  (Radix.length_of_mem_along h).2

/-- A page is entered: the allocator had the frames for its tables and `new` besides, and now it has
its descriptor. -/
structure Entered (s s' : Paged) (va : ℕ) (e : UInt64) (new : List ℕ) : Prop where
  takes : Takes s s' new
  leaf : ∀ v, s'.leaf v = if pageOf v = pageOf va then valid e else s.leaf v
  enough : (s.lacks (tables va)).length + new.length ≤ s.supply.length
  supply : s'.supply = s.supply.drop ((s.lacks (tables va)).length + new.length)
  absent : ∀ q : List (Fin 512), q.length ≤ 3 → (walk target s'.mem s'.space.root q = none ↔
    walk target s.mem s.space.root q = none ∧ q ∉ tables va)

theorem Walks.entered (hw : Walks s s' [] (path va) (some t)) (e : UInt64) :
    Entered s { s' with mem := write s'.mem t (index va 3) e } va e [] := by
  obtain ⟨htakes, hwalk, hleaf⟩ := hw.takes.inv.writeEntry hw.takes.fresh (hw.leads t rfl) e
  refine ⟨hw.takes.trans htakes, fun v => ?_, hw.isSome.mp rfl, hw.supply rfl, fun q hq => ?_⟩
  · rw [hleaf v, hw.leaf v]
  · rw [hwalk q hq]
    exact hw.absent rfl q hq

theorem Entered.length_supply {e : UInt64} {new : List ℕ} (h : Entered s s' va e new) :
    s'.supply.length + ((s.lacks (tables va)).length + new.length) = s.supply.length := by
  have henough := h.enough
  rw [h.supply, List.length_drop]
  omega

/-- The tables for the first page of a range, and then those for the others. -/
theorem Entered.card_lacking {e : UInt64} {new : List ℕ} (h : Entered s s' va e new) (n : ℕ) :
    (s.lacking va (n + 1)).card =
      (s.lacks (tables va)).length + (s'.lacking (va + PAGE_SIZE) n).card := by
  have hshift : ∀ i, va + (i + 1) * PAGE_SIZE = va + PAGE_SIZE + i * PAGE_SIZE := fun i => by
    rw [Nat.succ_mul]
    omega
  have hunion : s.lacking va (n + 1) =
      (s.lacks (tables va)).toFinset ∪ s'.lacking (va + PAGE_SIZE) n := by
    ext q
    rw [Finset.mem_union, mem_lacking, mem_lacking, List.mem_toFinset, lacks, List.mem_filter,
      decide_eq_true_eq]
    constructor
    · rintro ⟨⟨i, hi, hq⟩, hnone⟩
      by_cases hfirst : q ∈ tables va
      · exact .inl ⟨hfirst, hnone⟩
      · cases i with
        | zero => exact absurd (by rwa [Nat.zero_mul, Nat.add_zero] at hq) hfirst
        | succ i =>
          rw [hshift] at hq
          exact .inr ⟨⟨i, by omega, hq⟩, (h.absent q (length_of_mem_tables hq)).mpr ⟨hnone, hfirst⟩⟩
    · rintro (⟨hq, hnone⟩ | ⟨⟨i, hi, hq⟩, hnone⟩)
      · exact ⟨⟨0, by omega, by rwa [Nat.zero_mul, Nat.add_zero]⟩, hnone⟩
      · refine ⟨⟨i + 1, by omega, by rwa [hshift]⟩, ?_⟩
        exact ((h.absent q (length_of_mem_tables hq)).mp hnone).1
  rw [hunion, Finset.card_union_of_disjoint, card_lacks]
  apply Finset.disjoint_left.mpr
  intro q hq hq'
  rw [List.mem_toFinset, lacks, List.mem_filter] at hq
  obtain ⟨-, hnone⟩ := mem_lacking.mp hq'
  exact ((h.absent q (length_of_mem_tables hq.1)).mp hnone).2 hq.1

theorem room_le {cost n : ℕ} : s.room cost va n ≤ n := Nat.findGreatest_le n

/-- There is no room where the first page cannot be entered. -/
theorem room_of_short {cost : ℕ} (h : s.supply.length < (s.lacks (tables va)).length + cost)
    (n : ℕ) : s.room cost va n = 0 := by
  apply Nat.findGreatest_eq_zero_iff.mpr
  intro k hk _ hle
  have hsub : (s.lacks (tables va)).toFinset ⊆ s.lacking va k := by
    intro q hq
    rw [List.mem_toFinset, lacks, List.mem_filter, decide_eq_true_eq] at hq
    exact mem_lacking.mpr ⟨⟨0, hk, by rw [Nat.zero_mul, Nat.add_zero]; exact hq.1⟩, hq.2⟩
  have hcard := Finset.card_le_card hsub
  have hcost : cost ≤ cost * k := Nat.le_mul_of_pos_right cost hk
  rw [card_lacks] at hcard
  omega

/-- There is room for the first page, and then for the others. -/
theorem Entered.room_succ {e : UInt64} {new : List ℕ} {cost n : ℕ} (h : Entered s s' va e new)
    (hcost : new.length = cost) : s.room cost va (n + 1) = s'.room cost (va + PAGE_SIZE) n + 1 := by
  have hcard := h.card_lacking
  have hsupply := h.length_supply
  have hiff : ∀ k, (s.lacking va (k + 1)).card + cost * (k + 1) ≤ s.supply.length ↔
      (s'.lacking (va + PAGE_SIZE) k).card + cost * k ≤ s'.supply.length := by
    intro k
    rw [hcard k, Nat.mul_succ]
    omega
  generalize hm : s'.room cost (va + PAGE_SIZE) n = m
  obtain ⟨hle, hfits, hmore⟩ := Nat.findGreatest_eq_iff.mp hm
  apply Nat.findGreatest_eq_iff.mpr
  refine ⟨by omega, fun _ => (hiff _).mpr ?_, fun k hk hkn => ?_⟩
  · by_cases hzero : m = 0
    · rw [hzero, lacking, Finset.range_zero, Finset.biUnion_empty, Finset.card_empty, Nat.mul_zero]
      exact Nat.zero_le _
    · exact hfits hzero
  · cases k with
    | zero => omega
    | succ k =>
      rw [hiff k]
      exact hmore (by omega) (by omega)

/-! ## The calls -/

/-- The descriptors after a call that came to the first `n` pages from `va` on; a page that it came
to twice has the later one. -/
structure Enters (s s' : Paged) (va : ℕ) (entry : ℕ → Option UInt64) (n : ℕ) : Prop where
  last : ∀ j < n, (∀ k, j < k → k < n → pageOf (va + k * PAGE_SIZE) ≠ pageOf (va + j * PAGE_SIZE)) →
    ∀ v, pageOf v = pageOf (va + j * PAGE_SIZE) → s'.leaf v = entry j
  others : ∀ v, (∀ j < n, pageOf (va + j * PAGE_SIZE) ≠ pageOf v) → s'.leaf v = s.leaf v

theorem Enters.none {entry : ℕ → Option UInt64} (hsame : ∀ v, s'.leaf v = s.leaf v) :
    Enters s s' va entry 0 :=
  ⟨nofun, fun v _ => hsame v⟩

/-- The first page gets its descriptor, and then the others do. -/
theorem Enters.cons {entry : ℕ → Option UInt64} {n : ℕ} (hfirst : ∀ v,
      s'.leaf v = if pageOf v = pageOf va then entry 0 else s.leaf v)
    (hrest : Enters s' s'' (va + PAGE_SIZE) (fun j => entry (j + 1)) n) :
    Enters s s'' va entry (n + 1) := by
  have hzero : va + 0 * PAGE_SIZE = va := by rw [Nat.zero_mul, Nat.add_zero]
  have hshift : ∀ i, va + (i + 1) * PAGE_SIZE = va + PAGE_SIZE + i * PAGE_SIZE := fun i => by
    rw [Nat.succ_mul]
    omega
  constructor
  · intro j hj hlast v hv
    cases j with
    | zero =>
      rw [hzero] at hv
      rw [hrest.others v, hfirst v, if_pos hv]
      intro k hk
      rw [hv, ← hshift, ← hzero]
      exact hlast (k + 1) (by omega) (by omega)
    | succ j =>
      rw [hshift] at hv
      refine hrest.last j (by omega) (fun k hjk hk => ?_) v hv
      rw [← hshift, ← hshift]
      exact hlast (k + 1) (by omega) (by omega)
  · intro v hv
    have hne : pageOf v ≠ pageOf va := fun heq => hv 0 (by omega) (by rw [hzero, heq])
    rw [hrest.others v, hfirst v, if_neg hne]
    intro j hj
    rw [← hshift]
    exact hv (j + 1) (by omega)

/-- The descriptors that `map` writes. -/
def mapEntry (pa : ℕ) (perm : Perm) (j : ℕ) : Option UInt64 :=
  some ((pa + j * PAGE_SIZE).toUInt64 ||| perm.bits)

theorem mapFrom_spec {pa n : ℕ} {perm : Perm} {r : Except String Unit} : ∀ {i : ℕ} {s : Paged},
    Inv s → Fresh s → mapFrom va pa perm.bits n i s = (r, s') →
      Takes s s' [] ∧
        Enters s s' (va + i * PAGE_SIZE) (fun j => mapEntry pa perm (i + j))
          (s.room 0 (va + i * PAGE_SIZE) n) ∧
        (r = .ok () ↔ s.room 0 (va + i * PAGE_SIZE) n = n) := by
  induction n with
  | zero =>
    intro i s h hf hm
    have hroom : s.room 0 (va + i * PAGE_SIZE) 0 = 0 := Nat.le_zero.mp room_le
    cases hm
    rw [hroom]
    exact ⟨.refl h hf, .none fun _ => rfl, iff_of_true rfl rfl⟩
  | succ n ih =>
    intro i s h hf hm
    rw [mapFrom] at hm
    match he : s.entryFor (va + i * PAGE_SIZE) with
    | (none, s₁) =>
      rw [he] at hm
      cases hm
      have hw := entryFor_spec h hf he
      have hshort : ¬(s.lacks (tables (va + i * PAGE_SIZE))).length ≤ s.supply.length :=
        fun hle => by simpa using hw.isSome.mpr hle
      rw [room_of_short (by omega)]
      exact ⟨hw.takes, .none hw.leaf, iff_of_false nofun nofun⟩
    | (some table, s₁) =>
      rw [he] at hm
      have hentered := (entryFor_spec h hf he).entered ((pa + i * PAGE_SIZE).toUInt64 ||| perm.bits)
      obtain ⟨htakes, henters, hok⟩ := ih hentered.takes.inv hentered.takes.fresh hm
      have hnext : va + (i + 1) * PAGE_SIZE = va + i * PAGE_SIZE + PAGE_SIZE := by
        rw [Nat.succ_mul, Nat.add_assoc]
      have hentry : (fun j => mapEntry pa perm (i + 1 + j)) =
          fun j => mapEntry pa perm (i + (j + 1)) := by
        funext j
        rw [Nat.add_assoc, Nat.add_comm 1 j]
      rw [hnext, hentry] at henters
      rw [hnext] at hok
      rw [hentered.room_succ List.length_nil]
      refine ⟨hentered.takes.trans htakes, .cons (fun v => ?_) henters, ?_⟩
      · rw [hentered.leaf v, valid_page]
        rfl
      · rw [hok]
        exact Nat.succ_inj.symm

theorem map_spec {pa pages : ℕ} {perm : Perm} {r : Except String Unit} (h : Inv s) (hf : Fresh s)
    (hm : s.map va pa pages perm = (r, s')) (halign : va % PAGE_SIZE = 0 ∧ pa % PAGE_SIZE = 0) :
    Takes s s' [] ∧ Enters s s' va (mapEntry pa perm) (s.room 0 va pages) ∧
      (r = .ok () ↔ s.room 0 va pages = pages) := by
  have hcheck : ¬(va % PAGE_SIZE ≠ 0 ∨ pa % PAGE_SIZE ≠ 0) := by
    rw [not_or, not_not, not_not]
    exact halign
  rw [map, if_neg hcheck] at hm
  have hspec := mapFrom_spec h hf hm
  simp only [Nat.zero_mul, Nat.add_zero, Nat.zero_add] at hspec
  exact hspec

theorem map_unaligned {pa pages : ℕ} {perm : Perm}
    (h : ¬(va % PAGE_SIZE = 0 ∧ pa % PAGE_SIZE = 0)) :
    s.map va pa pages perm = (.error "unaligned mapping", s) := by
  rw [map, if_pos (by omega)]

/-- A frame of the supply is allocated and zeroed. -/
theorem Inv.allocate (h : Inv s) (hf : Fresh s) (hs : s.supply = next :: supply) :
    let s' : Paged :=
      { mem := Function.update s.mem next fun _ => 0
        supply := supply
        space := { s.space with owned := s.space.owned ++ [next] }
        anon := s.anon ++ [next] }
    Takes s s' [next] ∧ (∀ q : List (Fin 512), q.length ≤ 3 →
      walk target s'.mem s'.space.root q = walk target s.mem s.space.root q) ∧
        ∀ v, s'.leaf v = s.leaf v := by
  intro s'
  have hmem : next ∈ s.supply := hs ▸ List.mem_cons_self
  have hoff := hf.off h hmem
  have hsame : ∀ q : List (Fin 512), q.length ≤ 3 →
      walk target s'.mem s.space.root q = walk target s.mem s.space.root q :=
    fun q hq => Radix.walk_off hoff _ hq
  have hreaches : ∀ f, Reaches target s'.mem s.space.root 3 f ↔ Reaches target s.mem s.space.root 3 f :=
    fun f => Radix.reaches_congr hsame
  refine ⟨⟨⟨h.tree.congr hsame, fun f => ?_, fun f hanon hr => ?_, nodup_take h hf hs⟩,
    hf.take hs _ _, rfl, rfl, fun f hf => hs ▸ .tail _ hf, fun f hf => ?_, ?_, List.nodup_singleton _,
    fun f hanon => ?_, ?_⟩, hsame, fun v => ?_⟩
  · show f ∈ s.space.owned ++ [next] ↔
      Reaches target s'.mem s.space.root 3 f ∨ f ∈ s.anon ++ [next]
    rw [List.mem_append, List.mem_append, List.mem_singleton, h.owned, hreaches, or_assoc]
  · rcases List.mem_append.mp hanon with hanon | hnew
    · exact h.apart f hanon ((hreaches f).mp hr)
    · exact hoff (List.mem_singleton.mp hnew ▸ (hreaches f).mp hr)
  · rcases List.mem_append.mp hf with hf | hf
    · exact .inl hf
    · exact .inr (List.mem_singleton.mp hf ▸ hmem)
  · exact fun f hf => List.mem_singleton.mp hf ▸ hmem
  · have hnext : f ≠ next := fun heq => hf.notOwned next hmem (heq ▸ h.owned_of_anon hanon)
    exact Function.update_of_ne hnext _ _
  · intro f hf
    rw [List.mem_singleton.mp hf]
    exact Function.update_self _ _ _
  · exact Radix.find_off hoff _ le_rfl

/-- The frame for a page is allocated, and then the page is entered. -/
theorem Entered.allocated {e : UInt64} (htakes : Takes s s' [next]) (hs : s.supply = next :: s'.supply)
    (hwalk : ∀ q : List (Fin 512), q.length ≤ 3 →
      walk target s'.mem s'.space.root q = walk target s.mem s.space.root q)
    (hsame : ∀ v, s'.leaf v = s.leaf v) (h : Entered s' s'' va e []) : Entered s s'' va e [next] := by
  have hlacks : s'.lacks (tables va) = s.lacks (tables va) :=
    List.filter_congr fun q hq => by rw [hwalk q (length_of_mem_tables hq)]
  have henough := h.enough
  have hsupply := h.supply
  rw [hlacks, List.length_nil, Nat.add_zero] at henough hsupply
  refine ⟨htakes.trans h.takes, fun v => ?_, ?_, ?_, fun q hq => ?_⟩
  · rw [h.leaf v, hsame]
  · rw [hs]
    exact Nat.succ_le_succ henough
  · rw [hsupply, hs]
    rfl
  · rw [h.absent q hq, hwalk q hq]

/-- The frames that `map_anonymous` maps. -/
def given (s : Paged) (va j : ℕ) : Option ℕ := s.supply[(s.lacking va j).card + j]?

theorem given_zero (va : ℕ) (hs : s.supply = next :: supply) : s.given va 0 = some next := by
  rw [given, lacking, Finset.range_zero, Finset.biUnion_empty, Finset.card_empty, hs]
  rfl

theorem Entered.given_succ {e : UInt64} (h : Entered s s' va e [next]) (j : ℕ) :
    s.given va (j + 1) = s'.given (va + PAGE_SIZE) j := by
  have hindex : (s.lacks (tables va)).length + (s'.lacking (va + PAGE_SIZE) j).card + (j + 1) =
      (s.lacks (tables va)).length + 1 + ((s'.lacking (va + PAGE_SIZE) j).card + j) := by
    omega
  rw [given, given, h.card_lacking, h.supply, List.getElem?_drop, hindex]
  rfl

/-- One page: there is no room for it, or it gets the first frame of the supply. -/
theorem mapAnonymous_page {perm : Perm} {r : Except String Unit} (h : Inv s) (hf : Fresh s)
    (hs : s.supply = next :: supply) (halign : va % PAGE_SIZE = 0)
    (hm : map { mem := Function.update s.mem next fun _ => 0
                supply := supply
                space := { s.space with owned := s.space.owned ++ [next] }
                anon := s.anon ++ [next] } va next 1 perm = (r, s')) :
    r ≠ .ok () ∧ s.supply.length < (s.lacks (tables va)).length + 1 ∧ Takes s s' [next] ∧
      (∀ v, s'.leaf v = s.leaf v) ∨
    r = .ok () ∧ Entered s s' va (next.toUInt64 ||| perm.bits) [next] := by
  obtain ⟨htakes, hwalk, hsame⟩ := h.allocate hf hs
  have hmem : next ∈ s.supply := hs ▸ List.mem_cons_self
  have hcheck : ¬(va % PAGE_SIZE ≠ 0 ∨ next % PAGE_SIZE ≠ 0) := by
    rw [not_or, not_not, not_not]
    exact ⟨halign, Nat.mod_eq_zero_of_dvd (hf.aligned next hmem)⟩
  rw [map, if_neg hcheck, mapFrom] at hm
  generalize hs₁ : ({ mem := Function.update s.mem next fun _ => 0
                      supply := supply
                      space := { s.space with owned := s.space.owned ++ [next] }
                      anon := s.anon ++ [next] } : Paged) = s₁ at hm htakes hwalk hsame
  have hsupply : s.supply = next :: s₁.supply := by rw [hs, ← hs₁]
  simp only [Nat.zero_mul, Nat.add_zero] at hm
  match he : s₁.entryFor va with
  | (none, s₂) =>
    rw [he] at hm
    cases hm
    have hw := entryFor_spec htakes.inv htakes.fresh he
    have hshort : ¬(s₁.lacks (tables va)).length ≤ s₁.supply.length :=
      fun hle => by simpa using hw.isSome.mpr hle
    have hlacks : s₁.lacks (tables va) = s.lacks (tables va) :=
      List.filter_congr fun q hq => by rw [hwalk q (length_of_mem_tables hq)]
    have hlen := congrArg List.length hsupply
    rw [List.length_cons] at hlen
    rw [hlacks] at hshort
    refine .inl ⟨nofun, by omega, htakes.trans hw.takes, fun v => ?_⟩
    rw [hw.leaf, hsame]
  | (some table, s₂) =>
    rw [he] at hm
    dsimp only at hm
    rw [mapFrom] at hm
    cases hm
    have hentered := (entryFor_spec htakes.inv htakes.fresh he).entered (next.toUInt64 ||| perm.bits)
    exact .inr ⟨rfl, .allocated htakes hsupply hwalk hsame hentered⟩

theorem mapAnonymousFrom_spec {n : ℕ} {perm : Perm} {r : Except String Unit}
    (halign : va % PAGE_SIZE = 0) : ∀ {i : ℕ} {s : Paged}, Inv s → Fresh s →
      mapAnonymousFrom va perm n i s = (r, s') → ∃ frames, Takes s s' frames ∧
        Enters s s' (va + i * PAGE_SIZE)
          (fun j => (s.given (va + i * PAGE_SIZE) j).map fun f => f.toUInt64 ||| perm.bits)
          (s.room 1 (va + i * PAGE_SIZE) n) ∧
        (∀ j < s.room 1 (va + i * PAGE_SIZE) n, frames[j]? = s.given (va + i * PAGE_SIZE) j) ∧
        (r = .ok () ↔ s.room 1 (va + i * PAGE_SIZE) n = n) ∧ (r = .ok () → frames.length = n) := by
  induction n with
  | zero =>
    intro i s h hf hm
    have hroom : s.room 1 (va + i * PAGE_SIZE) 0 = 0 := Nat.le_zero.mp room_le
    cases hm
    rw [hroom]
    exact ⟨[], .refl h hf, .none fun _ => rfl, nofun, iff_of_true rfl rfl, fun _ => rfl⟩
  | succ n ih =>
    intro i s h hf hm
    rw [mapAnonymousFrom] at hm
    cases hs : s.supply with
    | nil =>
      rw [allocZeroed, hs] at hm
      cases hm
      rw [room_of_short (by rw [hs, List.length_nil]; omega)]
      exact ⟨[], .refl h hf, .none fun _ => rfl, nofun, iff_of_false nofun nofun, nofun⟩
    | cons next supply =>
      rw [allocZeroed, hs] at hm
      dsimp only at hm
      have hpage : (va + i * PAGE_SIZE) % PAGE_SIZE = 0 := by
        rw [Nat.add_mul_mod_self_right, halign]
      generalize hone : map _ (va + i * PAGE_SIZE) next 1 perm = x at hm
      obtain ⟨r₁, s₁⟩ := x
      rcases mapAnonymous_page h hf hs hpage hone with ⟨hr, hshort, htakes, hsame⟩ | ⟨rfl, hentered⟩
      · cases r₁ with
        | error why =>
          cases hm
          rw [room_of_short hshort]
          exact ⟨[next], htakes, .none hsame, nofun, iff_of_false nofun nofun, nofun⟩
        | ok u => exact absurd rfl hr
      · obtain ⟨frames, htakes, henters, hgiven, hok, hlen⟩ :=
          ih hentered.takes.inv hentered.takes.fresh hm
        have hnext : va + (i + 1) * PAGE_SIZE = va + i * PAGE_SIZE + PAGE_SIZE := by
          rw [Nat.succ_mul, Nat.add_assoc]
        rw [hnext] at henters hgiven hok
        have hfirst := given_zero (va + i * PAGE_SIZE) hs
        have hleaf : ∀ v, s₁.leaf v = if pageOf v = pageOf (va + i * PAGE_SIZE) then
            (s.given (va + i * PAGE_SIZE) 0).map fun f => f.toUInt64 ||| perm.bits
            else s.leaf v := by
          intro v
          rw [hentered.leaf v, hfirst, valid_page]
          rfl
        rw [hentered.room_succ List.length_singleton]
        refine ⟨next :: frames, hentered.takes.trans htakes, .cons hleaf ?_, fun j hj => ?_, ?_,
          fun hr => ?_⟩
        · simp only [hentered.given_succ]
          exact henters
        · cases j with
          | zero => exact hfirst.symm
          | succ j =>
            rw [hentered.given_succ, List.getElem?_cons_succ]
            exact hgiven j (by omega)
        · rw [hok]
          exact Nat.succ_inj.symm
        · rw [List.length_cons, hlen hr]

theorem mapAnonymous_spec {pages : ℕ} {perm : Perm} {r : Except String Unit} (h : Inv s) (hf : Fresh s)
    (hm : s.mapAnonymous va pages perm = (r, s')) (halign : va % PAGE_SIZE = 0) :
    ∃ frames, Takes s s' frames ∧
      Enters s s' va (fun j => (s.given va j).map fun f => f.toUInt64 ||| perm.bits) (s.room 1 va pages) ∧
      (∀ j < s.room 1 va pages, frames[j]? = s.given va j) ∧
      (r = .ok () ↔ s.room 1 va pages = pages) ∧ (r = .ok () → frames.length = pages) := by
  have hspec := mapAnonymousFrom_spec halign h hf hm
  rwa [Nat.zero_mul, Nat.add_zero] at hspec

/-- A frame is allocated, and not mapped. -/
theorem mapAnonymous_unaligned {pages : ℕ} {perm : Perm} {r : Except String Unit} (h : Inv s)
    (hf : Fresh s) (hm : s.mapAnonymous va pages perm = (r, s')) (halign : va % PAGE_SIZE ≠ 0) :
    ∃ frames, Takes s s' frames ∧ (∀ v, s'.leaf v = s.leaf v) ∧
      (r = .ok () → pages = 0 ∧ frames = []) := by
  rw [mapAnonymous] at hm
  cases pages with
  | zero =>
    cases hm
    exact ⟨[], .refl h hf, fun _ => rfl, fun _ => ⟨rfl, rfl⟩⟩
  | succ n =>
    rw [mapAnonymousFrom] at hm
    cases hs : s.supply with
    | nil =>
      rw [allocZeroed, hs] at hm
      cases hm
      exact ⟨[], .refl h hf, fun _ => rfl, nofun⟩
    | cons next supply =>
      obtain ⟨htakes, -, hsame⟩ := h.allocate hf hs
      have hbad : ¬((va + 0 * PAGE_SIZE) % PAGE_SIZE = 0 ∧ next % PAGE_SIZE = 0) := by
        rw [Nat.zero_mul, Nat.add_zero]
        exact fun ⟨hva, _⟩ => halign hva
      rw [allocZeroed, hs] at hm
      dsimp only at hm
      rw [map_unaligned hbad] at hm
      cases hm
      exact ⟨[next], htakes, hsame, nofun⟩

theorem walkFrom_eq {mem : Words} : ∀ {level table : ℕ}, walkFrom mem va left level table =
    walk target mem table ((List.range' level left).map (index va)) := by
  induction left with
  | zero => intro level table; rfl
  | succ left ih =>
    intro level table
    rw [walkFrom, List.range'_succ, List.map_cons, walk, target]
    split_ifs with hempty
    · rfl
    · exact ih

theorem unmapFrom_spec (va n : ℕ) : ∀ {i : ℕ} {s : Paged}, Inv s → Fresh s →
    Takes s (unmapFrom va n i s) [] ∧
      Enters s (unmapFrom va n i s) (va + i * PAGE_SIZE) (fun _ => none) n := by
  induction n with
  | zero =>
    intro i s h hf
    exact ⟨.refl h hf, .none fun _ => rfl⟩
  | succ n ih =>
    intro i s h hf
    have hnext : va + (i + 1) * PAGE_SIZE = va + i * PAGE_SIZE + PAGE_SIZE := by
      rw [Nat.succ_mul, Nat.add_assoc]
    have heq : walkFrom s.mem (va + i * PAGE_SIZE) 3 0 s.space.root =
        walk target s.mem s.space.root (path (va + i * PAGE_SIZE)) := walkFrom_eq
    rw [unmapFrom, heq]
    cases hwalk : walk target s.mem s.space.root (path (va + i * PAGE_SIZE)) with
    | none =>
      obtain ⟨htakes, hrest⟩ := ih (i := i + 1) h hf
      rw [hnext] at hrest
      refine ⟨htakes, .cons (fun v => ?_) hrest⟩
      -- the page has no table, so it is not mapped
      split_ifs with hv
      · rw [leaf, find, (same_entry.mpr hv).1, hwalk]
        rfl
      · rfl
    | some table =>
      obtain ⟨htakes, -, hwrite⟩ := h.writeEntry hf hwalk 0
      obtain ⟨htakes', hrest⟩ := ih (i := i + 1) htakes.inv htakes.fresh
      rw [hnext] at hrest
      exact ⟨htakes.trans htakes', .cons hwrite hrest⟩

theorem unmap_spec (va pages : ℕ) (h : Inv s) (hf : Fresh s) :
    Takes s (s.unmap va pages) [] ∧ Enters s (s.unmap va pages) va (fun _ => none) pages := by
  have hspec := unmapFrom_spec va pages (i := 0) h hf
  rwa [Nat.zero_mul, Nat.add_zero] at hspec

theorem translate_eq (s : Paged) (va : ℕ) :
    s.translate va = (s.lookup va).map (· + va % PAGE_SIZE) := by
  have heq : walkFrom s.mem va 3 0 s.space.root = walk target s.mem s.space.root (path va) :=
    walkFrom_eq
  rw [translate, heq, lookup, find]
  cases walk target s.mem s.space.root (path va) with
  | none => rfl
  | some table =>
    dsimp only
    rw [Option.bind_some, target]
    split_ifs with hempty
    · rfl
    · rw [lor_offset (dvd_mask _)]
      rfl

/-- The tables do not change, whatever else is written. -/
theorem Inv.store (h : Inv s) {frame : ℕ} (hoff : ¬Reaches target s.mem s.space.root 3 frame)
    (words : Fin 512 → UInt64) :
    let s' : Paged := { s with mem := Function.update s.mem frame words }
    Inv s' ∧ ∀ v, s'.leaf v = s.leaf v := by
  intro s'
  have hsame : ∀ q : List (Fin 512), q.length ≤ 3 →
      walk target s'.mem s.space.root q = walk target s.mem s.space.root q :=
    fun q hq => Radix.walk_off hoff words hq
  have hreaches : ∀ f, Reaches target s'.mem s.space.root 3 f ↔ Reaches target s.mem s.space.root 3 f :=
    fun f => Radix.reaches_congr hsame
  refine ⟨⟨h.tree.congr hsame, fun f => ?_, fun f hf hr => ?_, h.once⟩, fun v => ?_⟩
  · rw [hreaches]
    exact h.owned f
  · exact h.apart f hf ((hreaches f).mp hr)
  · exact Radix.find_off hoff words le_rfl

/-- The supply is another one in each call. -/
theorem Inv.supplied (h : Inv s) (supply : List ℕ) : Inv { s with supply := supply } :=
  ⟨h.tree, h.owned, h.apart, h.once⟩

/-- The root of a new space is blank, so no path leads further. -/
theorem create_spec {mem : Words} (h : create mem supply = some s) : Inv s ∧ ∀ v, s.leaf v = none := by
  cases supply with
  | nil => cases h
  | cons root supply =>
    have hs := (Option.some.inj h).symm
    have hwalk : ∀ p : List (Fin 512), walk target s.mem s.space.root p =
        if p = [] then some root else none := by
      intro p
      rw [hs]
      cases p with
      | nil => rfl
      | cons i p =>
        show (target ((Function.update mem root fun _ => 0) root i)).bind _ = _
        rw [Function.update_self]
        rfl
    have hreaches : ∀ f, Reaches target s.mem s.space.root 3 f ↔ f = root := by
      intro f
      constructor
      · rintro ⟨p, -, hp⟩
        rw [hwalk] at hp
        split_ifs at hp
        cases hp
        rfl
      · rintro rfl
        exact ⟨[], Nat.zero_le _, hwalk []⟩
    refine ⟨⟨fun p q t _ _ hp hq => ?_, fun f => ?_, ?_, ?_⟩, fun v => ?_⟩
    · rw [hwalk] at hp hq
      split_ifs at hp hq with hpn hqn
      rw [hpn, hqn]
    · rw [hreaches, hs]
      simp
    · simp [hs]
    · simp [hs]
    · rw [leaf, find, hwalk]
      rfl

end

end Paged

end JungeyOs.Mm
