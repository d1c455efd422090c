import JungeyOs.Mm.Space

/-!
# The leaf entries of an address space

`AddressSpace` (`kernel/src/mm/paging.rs`) by what its leaf entries say: which frame a page has, with
which permission, and what it was mapped for. The tables above the leaves are in `Mm.Paging`; here a
call is only told for how many of its pages the allocator has frames for tables.

Results:
* `enterFrom_cases`: a page after a call of `map`.
* `Represents.map`, `Represents.unmap`, `Represents.translate`: the page tables implement the leaf
  entries.
-/

namespace JungeyOs.Mm

/-- A leaf entry. `tag` is what the page was mapped for; the hardware does not see it. -/
structure Leaf (τ : Type*) where
  frame : ℕ
  perm : Perm
  tag : τ
  deriving DecidableEq

/-- The leaf entries of an address space, by page. -/
abbrev PageMap (τ : Type*) := ℕ → Option (Leaf τ)

namespace PageMap

variable {τ : Type*}

/-- The loop of `map` (lines 131–136) from page `i` on. -/
def enterFrom (va pa : ℕ) (perm : Perm) (tag : τ) : (n i : ℕ) → PageMap τ → PageMap τ
  | 0, _, m => m
  | n + 1, i, m => enterFrom va pa perm tag n (i + 1)
    (Function.update m (pageOf (va + i * PAGE_SIZE)) (some ⟨pa + i * PAGE_SIZE, perm, tag⟩))

/-- `map` (lines 127–139). The allocator has frames for the tables of `room` pages. -/
def map (m : PageMap τ) (va pa pages : ℕ) (perm : Perm) (tag : τ) (room : ℕ) :
    Except String Unit × PageMap τ :=
  if va % PAGE_SIZE ≠ 0 ∨ pa % PAGE_SIZE ≠ 0 then (.error "unaligned mapping", m)
  else
    (if pages ≤ room then .ok () else .error "out of frames for page tables",
      enterFrom va pa perm tag (min pages room) 0 m)

/-- The loop of `unmap` (lines 156–171) from page `i` on. -/
def unmapFrom (va : ℕ) : (n i : ℕ) → PageMap τ → PageMap τ
  | 0, _, m => m
  | n + 1, i, m => unmapFrom va n (i + 1) (Function.update m (pageOf (va + i * PAGE_SIZE)) none)

/-- `unmap` (lines 155–173). -/
def unmap (m : PageMap τ) (va pages : ℕ) : PageMap τ := unmapFrom va pages 0 m

/-- `translate` (lines 176–190). -/
def translate (m : PageMap τ) (va : ℕ) : Option ℕ :=
  (m (pageOf va)).map fun leaf => leaf.frame + va % PAGE_SIZE

/-! ## The entries after a call -/

section

variable {m : PageMap τ} {va pa n i p : ℕ} {perm : Perm} {tag : τ}

/-- A page after a call: its entry is one that the call wrote, or the call did not come to it. -/
theorem enterFrom_cases (va pa : ℕ) (perm : Perm) (tag : τ) (n i : ℕ) (m : PageMap τ) (p : ℕ) :
    (∃ j, i ≤ j ∧ j < i + n ∧ pageOf (va + j * PAGE_SIZE) = p ∧
      enterFrom va pa perm tag n i m p = some ⟨pa + j * PAGE_SIZE, perm, tag⟩) ∨
    (∀ j, i ≤ j → j < i + n → pageOf (va + j * PAGE_SIZE) ≠ p) ∧
      enterFrom va pa perm tag n i m p = m p := by
  induction n generalizing i m with
  | zero => exact .inr ⟨fun j hle hlt => by omega, rfl⟩
  | succ n ih =>
    rw [enterFrom]
    rcases ih (i := i + 1) (m := Function.update m (pageOf (va + i * PAGE_SIZE))
        (some ⟨pa + i * PAGE_SIZE, perm, tag⟩)) with ⟨j, hle, hlt, hpage, hleaf⟩ | ⟨hout, hsame⟩
    · exact .inl ⟨j, by omega, by omega, hpage, hleaf⟩
    · by_cases hp : pageOf (va + i * PAGE_SIZE) = p
      · refine .inl ⟨i, le_rfl, by omega, hp, ?_⟩
        rw [hsame, ← hp, Function.update_self]
      · refine .inr ⟨fun j hle hlt => ?_, ?_⟩
        · rcases Nat.eq_or_lt_of_le hle with rfl | hlt'
          · exact hp
          · exact hout j hlt' (by omega)
        · rw [hsame, Function.update_of_ne (Ne.symm hp)]

theorem unmapFrom_cases (va n i : ℕ) (m : PageMap τ) (p : ℕ) :
    (∃ j, i ≤ j ∧ j < i + n ∧ pageOf (va + j * PAGE_SIZE) = p) ∧ unmapFrom va n i m p = none ∨
    (∀ j, i ≤ j → j < i + n → pageOf (va + j * PAGE_SIZE) ≠ p) ∧ unmapFrom va n i m p = m p := by
  induction n generalizing i m with
  | zero => exact .inr ⟨fun j hle hlt => by omega, rfl⟩
  | succ n ih =>
    rw [unmapFrom]
    rcases ih (i := i + 1) (m := Function.update m (pageOf (va + i * PAGE_SIZE)) none) with
      ⟨⟨j, hle, hlt, hpage⟩, hnone⟩ | ⟨hout, hsame⟩
    · exact .inl ⟨⟨j, by omega, by omega, hpage⟩, hnone⟩
    · by_cases hp : pageOf (va + i * PAGE_SIZE) = p
      · refine .inl ⟨⟨i, le_rfl, by omega, hp⟩, ?_⟩
        rw [hsame, ← hp, Function.update_self]
      · refine .inr ⟨fun j hle hlt => ?_, ?_⟩
        · rcases Nat.eq_or_lt_of_le hle with rfl | hlt'
          · exact hp
          · exact hout j hlt' (by omega)
        · rw [hsame, Function.update_of_ne (Ne.symm hp)]

/-- An entry after `unmap` was there before. -/
theorem unmap_eq_some {pages : ℕ} {leaf : Leaf τ} (h : m.unmap va pages p = some leaf) :
    m p = some leaf := by
  rcases unmapFrom_cases va pages 0 m p with ⟨-, hnone⟩ | ⟨-, hsame⟩
  · rw [unmap, hnone] at h
    cases h
  · rwa [unmap, hsame] at h

/-- An entry after `map` was written by the call, or was there before. -/
theorem map_eq_some {pages room : ℕ} {leaf : Leaf τ}
    (h : (m.map va pa pages perm tag room).2 p = some leaf) :
    ((va % PAGE_SIZE = 0 ∧ pa % PAGE_SIZE = 0) ∧ ∃ j < min pages room,
      pageOf (va + j * PAGE_SIZE) = p ∧ leaf = ⟨pa + j * PAGE_SIZE, perm, tag⟩) ∨
    m p = some leaf := by
  rw [map] at h
  by_cases halign : va % PAGE_SIZE ≠ 0 ∨ pa % PAGE_SIZE ≠ 0
  · rw [if_pos halign] at h
    exact .inr h
  · rw [if_neg halign] at h
    dsimp only at h
    rw [not_or, not_not, not_not] at halign
    rcases enterFrom_cases va pa perm tag (min pages room) 0 m p with
      ⟨j, -, hlt, hpage, hleaf⟩ | ⟨-, hsame⟩
    · rw [hleaf] at h
      rw [Nat.zero_add] at hlt
      exact .inl ⟨halign, j, hlt, hpage, (Option.some.inj h).symm⟩
    · exact .inr (hsame ▸ h)

/-- `map` takes no entry out. -/
theorem map_isSome {pages room : ℕ} (h : (m p).isSome) : ((m.map va pa pages perm tag room).2 p).isSome := by
  rw [map]
  by_cases halign : va % PAGE_SIZE ≠ 0 ∨ pa % PAGE_SIZE ≠ 0
  · rw [if_pos halign]
    exact h
  · rw [if_neg halign]
    dsimp only
    rcases enterFrom_cases va pa perm tag (min pages room) 0 m p with ⟨j, -, -, -, hleaf⟩ | ⟨-, hsame⟩
    · rw [hleaf]
      rfl
    · rw [hsame]
      exact h

/-- `map` for one page. -/
theorem map_one {room page : ℕ} {leaf : Leaf τ}
    (h : (m.map va pa 1 perm tag room).2 page = some leaf) :
    0 < room ∧ PAGE_SIZE ∣ pa ∧ page = pageOf va ∧ leaf = ⟨pa, perm, tag⟩ ∨ m page = some leaf := by
  rcases map_eq_some h with ⟨⟨-, hpa⟩, j, hj, hpage, hleaf⟩ | hold
  · obtain rfl : j = 0 := by omega
    rw [Nat.zero_mul, Nat.add_zero] at hpage hleaf
    exact .inl ⟨by omega, Nat.dvd_of_mod_eq_zero hpa, hpage.symm, hleaf⟩
  · exact .inr hold

/-- `map` for one page, where there is room for it. -/
theorem map_page (m : PageMap τ) (perm : Perm) (tag : τ) {room : ℕ} (hva : va % PAGE_SIZE = 0)
    (hpa : pa % PAGE_SIZE = 0) (hroom : 0 < room) : m.map va pa 1 perm tag room =
      (.ok (), Function.update m (pageOf va) (some ⟨pa, perm, tag⟩)) := by
  have halign : ¬(va % PAGE_SIZE ≠ 0 ∨ pa % PAGE_SIZE ≠ 0) := by
    rw [not_or, not_not, not_not]
    exact ⟨hva, hpa⟩
  have hone : 1 ≤ room := hroom
  rw [map, if_neg halign, if_pos hone, Nat.min_eq_left hone, enterFrom, enterFrom, Nat.zero_mul,
    Nat.add_zero, Nat.add_zero]

theorem unmap_one (m : PageMap τ) (va : ℕ) : m.unmap va 1 = Function.update m (pageOf va) none := by
  rw [unmap, unmapFrom, unmapFrom, Nat.zero_mul, Nat.add_zero]

/-- The first page of a call that maps any. -/
theorem map_first (m : PageMap τ) (perm : Perm) (tag : τ) {pages room : ℕ}
    (hva : va % PAGE_SIZE = 0) (hpa : pa % PAGE_SIZE = 0)
    (hpages : 0 < pages) (hroom : 0 < room) : ∃ j < pages,
      (m.map va pa pages perm tag room).2 (pageOf va) = some ⟨pa + j * PAGE_SIZE, perm, tag⟩ := by
  have halign : ¬(va % PAGE_SIZE ≠ 0 ∨ pa % PAGE_SIZE ≠ 0) := by
    rw [not_or, not_not, not_not]
    exact ⟨hva, hpa⟩
  rw [map, if_neg halign]
  dsimp only
  rcases enterFrom_cases va pa perm tag (min pages room) 0 m (pageOf va) with
    ⟨j, -, hlt, -, hleaf⟩ | ⟨hout, -⟩
  · exact ⟨j, by omega, hleaf⟩
  · exact absurd (by rw [Nat.zero_mul, Nat.add_zero]) (hout 0 le_rfl (by omega))

end

/-! ## The page tables below -/

/-- The page tables give every address below 2^48 the frame that the leaf entries say. -/
def Represents (s : Paged) (m : PageMap τ) : Prop :=
  ∀ va < 2 ^ 48, s.lookup va = (m (pageOf va)).map Leaf.frame

section

variable {s s' : Paged} {m : PageMap τ} {va pa pages : ℕ} {perm : Perm}

theorem Represents.translate (h : Represents s m) (hva : va < 2 ^ 48) :
    s.translate va = m.translate va := by
  rw [Paged.translate_eq, h va hva, PageMap.translate, Option.map_map]
  rfl

/-- A call of `map` that succeeds. -/
theorem Represents.map (h : Represents s m) (hs : Paged.Inv s) (hf : Paged.Fresh s)
    (hva : va + pages * PAGE_SIZE ≤ 2 ^ 48) (hpa : pa + pages * PAGE_SIZE ≤ 2 ^ 48)
    (hm : s.map va pa pages perm = (.ok (), s')) (tag : τ) {room : ℕ} (hroom : pages ≤ room) :
    Represents s' (m.map va pa pages perm tag room).2 := by
  have halign : ¬(va % PAGE_SIZE ≠ 0 ∨ pa % PAGE_SIZE ≠ 0) := by
    intro hbad
    rw [Paged.map, if_pos hbad] at hm
    cases hm
  obtain ⟨-, hgives⟩ := Paged.map_gives hs hf hva hpa hm
  intro v hv
  have hcovers : (Call.map va pa pages).covers (v / PAGE_SIZE) ↔
      va / PAGE_SIZE ≤ v / PAGE_SIZE ∧ v / PAGE_SIZE < va / PAGE_SIZE + pages := Iff.rfl
  have hfrom (j : ℕ) (hj : j < pages) : pageOf (va + j * PAGE_SIZE) = va / PAGE_SIZE + j :=
    pageOf_add (page_lt hva hj)
  rw [PageMap.map, if_neg halign, Nat.min_eq_left hroom, hgives v hv, Call.apply]
  dsimp only
  rcases enterFrom_cases va pa perm tag pages 0 m (pageOf v) with
    ⟨j, -, hj, hpage, hleaf⟩ | ⟨hout, hsame⟩
  · rw [hfrom j (by omega), pageOf_of_lt hv] at hpage
    have hoffset : v / PAGE_SIZE - va / PAGE_SIZE = j := by omega
    rw [if_pos (hcovers.mpr (by omega)), hleaf]
    show some (pa + (v / PAGE_SIZE - va / PAGE_SIZE) * PAGE_SIZE) = some (pa + j * PAGE_SIZE)
    rw [hoffset]
  · rw [if_neg, hsame, h v hv]
    intro hin
    obtain ⟨hle, hlt⟩ := hcovers.mp hin
    refine hout (v / PAGE_SIZE - va / PAGE_SIZE) (Nat.zero_le _) (by omega) ?_
    rw [hfrom _ (by omega), pageOf_of_lt hv]
    omega

theorem Represents.unmap (h : Represents s m) (hs : Paged.Inv s) (hf : Paged.Fresh s)
    (hva : va + pages * PAGE_SIZE ≤ 2 ^ 48) : Represents (s.unmap va pages) (m.unmap va pages) := by
  obtain ⟨-, hgives⟩ := Paged.unmap_gives hs hf hva
  intro v hv
  have hcovers : (Call.unmap va pages).covers (v / PAGE_SIZE) ↔
      va / PAGE_SIZE ≤ v / PAGE_SIZE ∧ v / PAGE_SIZE < va / PAGE_SIZE + pages := Iff.rfl
  have hfrom (j : ℕ) (hj : j < pages) : pageOf (va + j * PAGE_SIZE) = va / PAGE_SIZE + j :=
    pageOf_add (page_lt hva hj)
  rw [hgives v hv, Call.apply, PageMap.unmap]
  rcases unmapFrom_cases va pages 0 m (pageOf v) with ⟨⟨j, -, hj, hpage⟩, hnone⟩ | ⟨hout, hsame⟩
  · rw [hfrom j (by omega), pageOf_of_lt hv] at hpage
    rw [if_pos (hcovers.mpr (by omega)), hnone]
    rfl
  · rw [if_neg, hsame, h v hv]
    intro hin
    obtain ⟨hle, hlt⟩ := hcovers.mp hin
    refine hout (v / PAGE_SIZE - va / PAGE_SIZE) (Nat.zero_le _) (by omega) ?_
    rw [hfrom _ (by omega), pageOf_of_lt hv]
    omega

end

end PageMap

end JungeyOs.Mm
