import JungeyOs.Mm.HalfMapped
import JungeyOs.Mm.Uaccess

/-!
# Addresses above the user half

`index` (`kernel/src/mm/paging.rs`, lines 67–69) keeps nine bits for each level and drops bits 48 to
63 of an address, so that an address of the kernel half is looked up as the address of the user half
with the same lower bits. The copies of `kernel/src/mm/uaccess.rs` translate with these tables.

Results:
* `Paged.translate_entries`: the leaf entries of a space, as the copies see them.
* `high_half`: which addresses of the kernel half translate, which copies at them succeed, and when a
  call changes the translation of a page that it was not given.
-/

namespace JungeyOs.Mm

/-- The permission that a descriptor gives. -/
def Perm.ofBits (e : UInt64) : Perm :=
  if e &&& PTE_UXN = 0 then .UserText
  else if e &&& PTE_ATTR_NORMAL = 0 then .UserDevice
  else if e &&& PTE_AP_RO = 0 then .UserData
  else .UserReadOnly

/-- The address of a page has no bits in common with what is not an address. -/
theorem or_land_of_page {p : ℕ} {b c : UInt64} (hdvd : PAGE_SIZE ∣ p) (hlt : p < 2 ^ 48)
    (hb : b &&& ADDR_MASK = 0) : (p.toUInt64 ||| c) &&& b = c &&& b := by
  have hzero : p.toUInt64 &&& b = 0 := by
    rw [← page_land_mask hdvd hlt, UInt64.and_assoc, UInt64.and_comm ADDR_MASK, hb, UInt64.and_zero]
  rw [or_land, hzero, UInt64.zero_or]

/-- A page has the permission that it was mapped with. -/
theorem Perm.ofBits_page {p : ℕ} (hdvd : PAGE_SIZE ∣ p) (hlt : p < 2 ^ 48) (perm : Perm) :
    Perm.ofBits (p.toUInt64 ||| perm.bits) = perm := by
  have huxn := or_land_of_page (b := PTE_UXN) (c := perm.bits) hdvd hlt (by decide)
  have hnormal := or_land_of_page (b := PTE_ATTR_NORMAL) (c := perm.bits) hdvd hlt (by decide)
  have hro := or_land_of_page (b := PTE_AP_RO) (c := perm.bits) hdvd hlt (by decide)
  rw [ofBits, huxn, hnormal, hro]
  cases perm <;> decide

namespace Paged

/-- The leaf entries of a space, each with its descriptor. -/
def entries (s : Paged) : PageMap UInt64 := fun page =>
  (s.leaf (page * PAGE_SIZE)).map fun e => ⟨(e &&& ADDR_MASK).toNat, Perm.ofBits e, e⟩

section

variable {s : Paged} {v : ℕ}

/-- The leaf entries translate as the tables do, at any address. -/
theorem translate_entries (s : Paged) (va : ℕ) : s.entries.translate va = s.translate va := by
  have hpage : pageOf (pageOf va * PAGE_SIZE) = pageOf va := by
    have h := pageOf_add_mul 0 (pageOf va)
    rw [Nat.zero_add, Nat.zero_div, Nat.zero_add] at h
    rw [h]
    exact Nat.mod_mod _ _
  rw [PageMap.translate, entries, leaf_congr hpage, translate_eq, lookup_eq, Option.map_map,
    Option.map_map]
  rfl

theorem translate_eq_none : s.translate v = none ↔ s.leaf v = none := by
  rw [translate_eq, lookup_eq, Option.map_eq_none_iff, Option.map_eq_none_iff]

end

end Paged

namespace Written

/-- What the kernel half of an address space is: the user half again. `log` has what was written for
the pages of the user half, and for pages of the kernel half as for pages of the user half. -/
structure HighHalf (s : Written) : Prop where
  translate : ∀ va, 2 ^ 48 ≤ va →
    (s.st.translate va = none ↔ written s.log (va / PAGE_SIZE) = none)
  copyFrom : ∀ (mem : Memory) (uva len : ℕ), (∃ i < len, 2 ^ 48 ≤ uva + i) →
    ((∃ bytes, copyFromUser s.st.entries mem uva len = .ok bytes) ↔
      len ≤ MAX_TRANSFER ∧ ∀ i < len, (written s.log ((uva + i) / PAGE_SIZE)).isSome)
  copyTo : ∀ (mem : Memory) (uva : ℕ) (data : List UInt8), (∃ i < data.length, 2 ^ 48 ≤ uva + i) →
    ((copyToUser s.st.entries uva data mem).1 = .ok () ↔
      ∀ i < data.length, (written s.log ((uva + i) / PAGE_SIZE)).isSome)
  others : ∀ a, Ok s a → ∀ v, (∀ w ∈ s.st.writes a, w.page % 2 ^ 52 ≠ v / PAGE_SIZE) →
    ((s.st.call a).2.translate v = s.st.translate v ↔
      ∀ w, lastWrite (v / PAGE_SIZE) (s.st.writes a) = some w →
        w.entry.map (· &&& ADDR_MASK) = (written s.log (v / PAGE_SIZE)).map (· &&& ADDR_MASK))

section

variable {s : Written} {a : Space.Act}

theorem Inv.isSome_translate (h : Inv s) (va : ℕ) :
    (s.st.entries.translate va).isSome = (written s.log (va / PAGE_SIZE)).isSome := by
  rw [Paged.translate_entries, Paged.translate_eq, Paged.lookup_eq, Option.isSome_map,
    Option.isSome_map, h.leaf]

/-- In every run, an address of the kernel half translates exactly when the last call that came to a
page with the same lower bits mapped it. -/
theorem high_half (h : Run.Reachable step Ok Starts s) : HighHalf s := by
  have hi := inv h
  refine ⟨fun va _ => ?_, fun mem uva len _ => ?_, fun mem uva data _ => ?_, fun a hok v _ => ?_⟩
  · rw [Paged.translate_eq_none, hi.leaf]
  · rw [copyFromUser_ok_iff]
    simp only [hi.isSome_translate]
  · rw [copyToUser_ok_iff]
    simp only [hi.isSome_translate]
  · obtain ⟨-, hleaf, -⟩ := Paged.call_spec hi.st hok
    rw [Paged.translate_eq_iff, hleaf v, hi.leaf v]
    cases lastWrite (v / PAGE_SIZE) (s.st.writes a) with
    | none => simp
    | some w => simp

end

/-- A page of the user half. -/
def userPage : Space.Act :=
  .map 0x401000 0x80000000 1 .UserReadOnly [0x40001000, 0x40002000, 0x40003000]

theorem userPage_reachable :
    Run.Reachable step Ok Starts ⟨(fresh.st.call userPage).2, fresh.st.writes userPage ++ []⟩ := by
  have hok : fresh.st.Ok userPage := by
    refine ⟨?_, ?_, ?_, ?_⟩ <;> decide
  exact .next fresh_reachable hok rfl

theorem high_half_userPage :
    HighHalf ⟨(fresh.st.call userPage).2, fresh.st.writes userPage ++ []⟩ :=
  high_half userPage_reachable

/-- A page of the user half is there in the kernel half, too. -/
theorem kernel_pointer_translates : ¬∀ s : Written, Run.Reachable step Ok Starts s →
    ∀ va, 2 ^ 48 ≤ va → va < 2 ^ 64 → s.st.translate va = none := by
  intro h
  have hpage : (fresh.st.call userPage).2.translate 0xffff000000401000 = some 0x80000000 := by decide
  have hnone := h _ userPage_reachable 0xffff000000401000 (by decide) (by decide)
  dsimp only at hnone
  rw [hpage] at hnone
  cases hnone

end Written

end JungeyOs.Mm
