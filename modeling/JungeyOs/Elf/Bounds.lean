import JungeyOs.Elf
import JungeyOs.Syscall.Arithmetic

/-!
# Headers of any values

What `load` (`kernel/src/elf.rs`, lines 52–128) adds, subtracts, reads and cuts out of the image, with
`page_align_up` (`mm/mod.rs`, lines 36–38). The values of the header are checked after they have been added,
so that the checks can be passed by sums that have wrapped around.

Results:
* `copyOps_fine`: the copy of a segment stays in range.
* `segment_bounded_iff`, `from_bounded_iff`: one segment, and all of them.
* `load_bounded_iff`: the images that are loaded without leaving the image or wrapping around.
-/

namespace JungeyOs.Elf

open Mm (PAGE_SIZE PAGE_SIZE_pos Paged pageAlignDown pageAlignUp chunk storeBytes)
open Syscall (U64 PHYS_OFFSET u64_natCast)

/-! ## The operations -/

/-- What `load` does: the exact result of an addition or subtraction, a read of bytes of the image, the
cut of a slice of `len` bytes, or a turn of the copy for which the model has no fuel. -/
inductive Op
  | value (v : ℤ)
  | bytes (pos len : ℕ)
  | slice (start stop len : ℕ)
  | spent

/-- The result is a `u64`, the bytes are in the image, the slice does not panic. -/
def Op.Fine (image : List UInt8) : Op → Prop
  | value v => U64 v
  | bytes pos len => pos + len ≤ image.length
  | slice start stop len => start ≤ stop ∧ stop ≤ len
  | spent => False

/-- `read` (lines 52–57). -/
def readOps (image : List UInt8) (pos size : ℕ) : List Op :=
  .value (pos + size : ℕ) :: if image.length < (pos + size) % 2 ^ 64 then [] else [.bytes pos size]

/-- The loop that copies the bytes at `offset` (lines 110–123). -/
def copyOps (vaddr offset : ℕ) (bytes : List UInt8) : (fuel done : ℕ) → Paged → List Op
  | 0, done, _ => if done < bytes.length then [.spent] else []
  | fuel + 1, done, s =>
    if done < bytes.length then
      .value (vaddr + done : ℕ) :: match s.translate (vaddr + done) with
        | none => []
        | some pa =>
          let inPage : ℤ := PAGE_SIZE - ((vaddr + done) % PAGE_SIZE : ℕ)
          let n := chunk vaddr bytes.length done
          [.value inPage, .value ((bytes.length : ℤ) - done), .slice done bytes.length bytes.length,
            .bytes (offset + done) n, .value (pa + PHYS_OFFSET : ℕ), .value (done + n : ℕ)] ++
            copyOps vaddr offset bytes fuel (done + n)
              { s with mem := storeBytes s.mem pa ((bytes.drop done).take n) }
    else []

/-- `page_align_up`, and the length of the segment (lines 88–90). -/
def Phdr.pageOps (ph : Phdr) : List Op :=
  let last : ℕ := (ph.vaddr + ph.memsz) % 2 ^ 64
  let above : ℕ := (last + PAGE_SIZE) % 2 ^ 64
  let stop : ℕ := pageAlignUp last % 2 ^ 64
  [.value (ph.vaddr + ph.memsz : ℕ), .value (last + PAGE_SIZE : ℕ), .value ((above : ℤ) - 1),
    .value ((stop : ℤ) - pageAlignDown ph.vaddr)]

/-- The body of the loop over the program headers (lines 78–124). -/
def segmentOps (image : List UInt8) (ph : Phdr) (s : Paged) : List Op :=
  if ph.ptype ≠ PT_LOAD ∨ ph.memsz = 0 then []
  else if ph.memsz < ph.filesz then []
  else ph.pageOps ++ match s.mapAnonymous (pageAlignDown ph.vaddr) ph.pages ph.perm with
    | (.error _, _) => []
    | (.ok (), s) =>
      .value (ph.offset + ph.filesz : ℕ) ::
        if image.length < ph.srcEnd then []
        else .slice ph.offset ph.srcEnd image.length ::
          if ph.srcEnd < ph.offset then []
          else
            let bytes := (image.take ph.srcEnd).drop ph.offset
            copyOps ph.vaddr ph.offset bytes bytes.length 0 s

/-- The loop over the program headers (lines 76–125) from header `i` on. -/
def fromOps (image : List UInt8) (eh : Ehdr) : (n i : ℕ) → Paged → List Op
  | 0, _, _ => []
  | n + 1, i, s =>
    let pos := (eh.phoff + i * eh.phentsize) % 2 ^ 64
    .value (eh.phoff + i * eh.phentsize : ℕ) :: readOps image pos PHDR_SIZE ++
      match read image pos PHDR_SIZE with
      | .error _ => []
      | .ok bytes =>
        segmentOps image (Phdr.ofBytes bytes) s ++ match loadSegment image (Phdr.ofBytes bytes) s with
          | (.error _, _) => []
          | (.ok (), s) => fromOps image eh n (i + 1) s

/-- `load` (lines 60–128). -/
def loadOps (s : Paged) (image : List UInt8) : List Op :=
  readOps image 0 EHDR_SIZE ++ match read image 0 EHDR_SIZE with
    | .error _ => []
    | .ok bytes =>
      let eh := Ehdr.ofBytes bytes
      if eh.ident.take 4 ≠ ELF_MAGIC then []
      else if eh.ident[4]? ≠ some ELFCLASS64 ∨ eh.ident[5]? ≠ some ELFDATA2LSB then []
      else if eh.etype ≠ ET_EXEC then []
      else if eh.machine ≠ EM_AARCH64 then []
      else fromOps image eh eh.phnum 0 s

/-- `load` comes back with an entry point or an error, and all that it does on the way is fine. -/
structure Bounded (s : Paged) (image : List UInt8) : Prop where
  fine : ∀ op ∈ loadOps s image, op.Fine image
  returns : (load s image).1 ≠ .error .fault

/-! ## The images -/

/-- The header of an image, if it passes the checks (lines 62–74). -/
def header (image : List UInt8) : Option Ehdr :=
  match read image 0 EHDR_SIZE with
  | .error _ => none
  | .ok bytes =>
    let eh := Ehdr.ofBytes bytes
    if eh.ident.take 4 = ELF_MAGIC ∧ eh.ident[4]? = some ELFCLASS64 ∧ eh.ident[5]? = some ELFDATA2LSB ∧
      eh.etype = ET_EXEC ∧ eh.machine = EM_AARCH64 then some eh else none

/-- The sums of a segment that is loaded into a space. -/
structure Phdr.Fits (ph : Phdr) (s : Paged) : Prop where
  pages : ph.vaddr + ph.memsz + PAGE_SIZE < 2 ^ 64
  source : ∀ s', s.mapAnonymous (pageAlignDown ph.vaddr) ph.pages ph.perm = (.ok (), s') →
    ph.offset + ph.filesz < 2 ^ 64

/-- The sums for header `i`, to which `load` comes with the space `s`. -/
structure HeaderFits (image : List UInt8) (eh : Ehdr) (i : ℕ) (s : Paged) : Prop where
  place : eh.phoff + i * eh.phentsize + PHDR_SIZE < 2 ^ 64
  segment : ∀ bytes, read image (eh.phoff + i * eh.phentsize) PHDR_SIZE = .ok bytes →
    (Phdr.ofBytes bytes).ptype = PT_LOAD → (Phdr.ofBytes bytes).memsz ≠ 0 →
      (Phdr.ofBytes bytes).filesz ≤ (Phdr.ofBytes bytes).memsz → (Phdr.ofBytes bytes).Fits s

/-! ## One segment -/

section

variable {image bytes : List UInt8} {s : Paged} {ph : Phdr} {eh : Ehdr}

/-- The linear map holds every page that a leaf entry can name. -/
theorem translate_lt {va pa : ℕ} (h : s.translate va = some pa) : pa < 2 ^ 48 := by
  have hmask : ∀ e : UInt64, (e &&& Mm.ADDR_MASK).toNat < 2 ^ 48 := by
    intro e
    rw [UInt64.toNat_and]
    exact Nat.and_lt_two_pow _ (by decide)
  rw [Paged.translate] at h
  cases hwalk : Paged.walkFrom s.mem va 3 0 s.space.root with
  | none =>
    rw [hwalk] at h
    cases h
  | some table =>
    rw [hwalk] at h
    dsimp only at h
    split_ifs at h
    cases h
    exact Nat.or_lt_two_pow (hmask _) (Nat.and_lt_two_pow _ (by decide))

theorem copyIn_ne_fault (vaddr : ℕ) (fuel : ℕ) : ∀ (done : ℕ) (s : Paged),
    (copyIn vaddr bytes fuel done s).1 ≠ .error .fault := by
  induction fuel with
  | zero =>
    intro _ _ h
    cases h
  | succ fuel ih =>
    intro done s
    rw [copyIn]
    by_cases hdone : done < bytes.length
    · rw [if_pos hdone]
      cases s.translate (vaddr + done) with
      | none =>
        intro h
        cases h
      | some pa => exact ih _ _
    · rw [if_neg hdone]
      intro h
      cases h

/-- The copy of a segment stays in range, and comes to its end. -/
theorem copyOps_fine {vaddr offset : ℕ} (hva : vaddr + bytes.length < 2 ^ 64)
    (himage : offset + bytes.length ≤ image.length) (fuel : ℕ) : ∀ {done : ℕ} {s : Paged},
    bytes.length ≤ done + fuel → ∀ op ∈ copyOps vaddr offset bytes fuel done s, op.Fine image := by
  induction fuel with
  | zero =>
    intro done s hfuel
    rw [copyOps, if_neg (by omega)]
    exact nofun
  | succ fuel ih =>
    intro done s hfuel
    rw [copyOps]
    by_cases hdone : done < bytes.length
    · rw [if_pos hdone]
      have hplace : Op.Fine image (.value (vaddr + done : ℕ)) := u64_natCast.mpr (by omega)
      cases hpa : s.translate (vaddr + done) with
      | none => exact List.forall_mem_cons.mpr ⟨hplace, nofun⟩
      | some pa =>
        have hpos : 0 < chunk vaddr bytes.length done := Mm.chunk_pos hdone
        have hend : done + chunk vaddr bytes.length done ≤ max done bytes.length := Mm.chunk_le
        have hlow := translate_lt hpa
        have hmod := Nat.mod_lt (vaddr + done) PAGE_SIZE_pos
        have hsize : (PAGE_SIZE : ℤ) = 4096 := rfl
        have hoffset : PHYS_OFFSET = 0xFFFF000000000000 := rfl
        refine List.forall_mem_cons.mpr ⟨hplace, List.forall_mem_append.mpr ⟨?_, ih (by omega)⟩⟩
        simp only [List.forall_mem_cons, Op.Fine, u64_natCast]
        refine ⟨?_, ?_, ?_, ?_, ?_, ?_, nofun⟩
        all_goals
          first
          | omega
          | unfold U64
            omega
    · rw [if_neg hdone]
      exact nofun

/-- The fields of a header are `u64` values. -/
theorem field_lt (bytes : List UInt8) (offset : ℕ) : field bytes offset 8 < 2 ^ 64 := by
  have hlt : field bytes offset 8 < 256 ^ ((bytes.drop offset).take 8).length := Bytes.ofLE_lt _
  have hlen : ((bytes.drop offset).take 8).length ≤ 8 := List.length_take_le _ _
  calc field bytes offset 8 < 256 ^ ((bytes.drop offset).take 8).length := hlt
    _ ≤ 256 ^ 8 := Nat.pow_le_pow_right (by decide) hlen
    _ = 2 ^ 64 := by decide

/-- The sums of `page_align_up` stay in range exactly if they do without being cut to 64 bits. -/
theorem pageOps_fine_iff (hva : ph.vaddr < 2 ^ 64) :
    (∀ op ∈ ph.pageOps, op.Fine image) ↔ ph.vaddr + ph.memsz + PAGE_SIZE < 2 ^ 64 := by
  have hsize : PAGE_SIZE = 4096 := rfl
  simp only [Phdr.pageOps, List.forall_mem_cons, Op.Fine, U64, pageAlignUp, pageAlignDown, hsize]
  constructor
  · rintro ⟨hlast, habove, -⟩
    omega
  · intro h
    refine ⟨by omega, by omega, by omega, by omega, List.forall_mem_nil _⟩

/-- A segment is loaded without a fault, and with all operations fine. -/
def SegmentBounded (image : List UInt8) (ph : Phdr) (s : Paged) : Prop :=
  (∀ op ∈ segmentOps image ph s, op.Fine image) ∧ (loadSegment image ph s).1 ≠ .error .fault

theorem segment_bounded_iff (hva : ph.vaddr < 2 ^ 64) (hoff : ph.offset < 2 ^ 64) :
    SegmentBounded image ph s ↔
      (ph.ptype = PT_LOAD → ph.memsz ≠ 0 → ph.filesz ≤ ph.memsz → ph.Fits s) := by
  rw [SegmentBounded, segmentOps, loadSegment]
  by_cases hskip : ph.ptype ≠ PT_LOAD ∨ ph.memsz = 0
  · rw [if_pos hskip, if_pos hskip]
    exact iff_of_true ⟨List.forall_mem_nil _, by simp⟩ fun htype hmem => by tauto
  rw [if_neg hskip, if_neg hskip]
  by_cases hsz : ph.memsz < ph.filesz
  · rw [if_pos hsz, if_pos hsz]
    exact iff_of_true ⟨List.forall_mem_nil _, by simp⟩ fun _ _ hle => absurd hsz (Nat.not_lt.mpr hle)
  rw [if_neg hsz, if_neg hsz]
  have hloaded : ph.ptype = PT_LOAD ∧ ph.memsz ≠ 0 ∧ ph.filesz ≤ ph.memsz := by
    refine ⟨?_, ?_, Nat.not_lt.mp hsz⟩ <;> tauto
  rw [List.forall_mem_append, pageOps_fine_iff hva, forall_prop_of_true hloaded.1,
    forall_prop_of_true hloaded.2.1, forall_prop_of_true hloaded.2.2]
  rcases hm : s.mapAnonymous (pageAlignDown ph.vaddr) ph.pages ph.perm with ⟨why | _, s'⟩
  · refine ⟨fun h => ⟨h.1.1, fun t ht => ?_⟩, fun h => ⟨⟨h.pages, List.forall_mem_nil _⟩, by simp⟩⟩
    rw [hm] at ht
    cases ht
  · dsimp only
    rw [List.forall_mem_cons]
    have hsource : Op.Fine image (.value (ph.offset + ph.filesz : ℕ)) ↔
        ph.offset + ph.filesz < 2 ^ 64 := u64_natCast
    rw [hsource]
    constructor
    · rintro ⟨⟨hpages, hfile, -⟩, -⟩
      exact ⟨hpages, fun _ _ => hfile⟩
    · intro h
      have hfile := h.source s' hm
      have hpages := h.pages
      have hend : ph.srcEnd = ph.offset + ph.filesz := Nat.mod_eq_of_lt hfile
      by_cases hpast : image.length < ph.srcEnd
      · rw [if_pos hpast, if_pos hpast]
        exact ⟨⟨hpages, hfile, List.forall_mem_nil _⟩, by simp⟩
      · rw [if_neg hpast, if_neg hpast, if_neg (by omega), if_neg (by omega)]
        have hlen : ((image.take ph.srcEnd).drop ph.offset).length = ph.filesz := by
          rw [List.length_drop, List.length_take]
          omega
        have hslice : Op.Fine image (.slice ph.offset ph.srcEnd image.length) :=
          ⟨by omega, Nat.not_lt.mp hpast⟩
        refine ⟨⟨hpages, hfile, List.forall_mem_cons.mpr ⟨hslice, ?_⟩⟩, copyIn_ne_fault _ _ _ _⟩
        exact copyOps_fine (by omega) (by omega) _ (by omega)

/-! ## All headers -/

/-- A header is read without a fault exactly if its end does not wrap around. -/
theorem read_bounded_iff {pos size : ℕ} :
    (∀ op ∈ readOps image pos size, op.Fine image) ↔ pos + size < 2 ^ 64 := by
  rw [readOps, List.forall_mem_cons]
  have hsum : Op.Fine image (.value (pos + size : ℕ)) ↔ pos + size < 2 ^ 64 := u64_natCast
  rw [hsum]
  constructor
  · exact fun h => h.1
  · intro h
    refine ⟨h, ?_⟩
    rw [Nat.mod_eq_of_lt h]
    split_ifs with hlen
    · exact nofun
    · exact List.forall_mem_cons.mpr ⟨Nat.not_lt.mp hlen, nofun⟩

theorem read_ne_fault {pos size : ℕ} (h : pos + size < 2 ^ 64) : read image pos size ≠ .error .fault := by
  rw [read, Nat.mod_eq_of_lt h]
  split_ifs <;> exact nofun

/-- The loop from header `i` on ends without a fault, and with all operations fine. -/
def FromBounded (image : List UInt8) (eh : Ehdr) (n i : ℕ) (s : Paged) : Prop :=
  (∀ op ∈ fromOps image eh n i s, op.Fine image) ∧ (loadFrom image eh n i s).1 ≠ .error .fault

/-- The loop comes past header `i` exactly if its segment is loaded. -/
theorem loadFrom_succ_ok {n i : ℕ} {s' : Paged} : loadFrom image eh (n + 1) i s = (.ok (), s') ↔
    ∃ bytes s₁, read image ((eh.phoff + i * eh.phentsize) % 2 ^ 64) PHDR_SIZE = .ok bytes ∧
      loadSegment image (Phdr.ofBytes bytes) s = (.ok (), s₁) ∧
        loadFrom image eh n (i + 1) s₁ = (.ok (), s') := by
  rw [loadFrom]
  cases hread : read image ((eh.phoff + i * eh.phentsize) % 2 ^ 64) PHDR_SIZE with
  | error why => simp
  | ok bytes =>
    dsimp only
    rcases hsegment : loadSegment image (Phdr.ofBytes bytes) s with ⟨why | _, s₁⟩
    · refine iff_of_false (by simp) ?_
      rintro ⟨b, s₂, hb, h, -⟩
      cases hb
      rw [hsegment] at h
      cases h
    · constructor
      · exact fun h => ⟨bytes, s₁, rfl, hsegment, h⟩
      · rintro ⟨b, s₂, hb, h, hrest⟩
        cases hb
        rw [hsegment] at h
        cases h
        exact hrest

/-- One header. -/
theorem from_bounded_succ {n i : ℕ} : FromBounded image eh (n + 1) i s ↔ HeaderFits image eh i s ∧
    ∀ bytes s₁, read image ((eh.phoff + i * eh.phentsize) % 2 ^ 64) PHDR_SIZE = .ok bytes →
      loadSegment image (Phdr.ofBytes bytes) s = (.ok (), s₁) → FromBounded image eh n (i + 1) s₁ := by
  have hplace : Op.Fine image (.value (eh.phoff + i * eh.phentsize : ℕ)) ↔
      eh.phoff + i * eh.phentsize < 2 ^ 64 := u64_natCast
  rw [FromBounded, fromOps, loadFrom, List.cons_append, List.forall_mem_cons, List.forall_mem_append,
    hplace, read_bounded_iff]
  by_cases hpos : eh.phoff + i * eh.phentsize + PHDR_SIZE < 2 ^ 64
  · have hmod : (eh.phoff + i * eh.phentsize) % 2 ^ 64 = eh.phoff + i * eh.phentsize :=
      Nat.mod_eq_of_lt (by omega)
    have hplace : eh.phoff + i * eh.phentsize < 2 ^ 64 := by omega
    have hfault : read image _ PHDR_SIZE ≠ .error .fault := read_ne_fault hpos
    rw [hmod, and_iff_right hpos, and_iff_right hplace]
    cases hread : read image (eh.phoff + i * eh.phentsize) PHDR_SIZE with
    | error why =>
      rw [hread] at hfault
      refine iff_of_true ⟨List.forall_mem_nil _, fun h => hfault (congrArg _ (Except.error.inj h))⟩
        ⟨⟨hpos, fun b hb => ?_⟩, by simp⟩
      rw [hread] at hb
      cases hb
    | ok bytes =>
      have hheader : HeaderFits image eh i s ↔ SegmentBounded image (Phdr.ofBytes bytes) s := by
        rw [segment_bounded_iff (field_lt bytes 16) (field_lt bytes 8)]
        constructor
        · exact fun h => h.segment bytes hread
        · refine fun h => ⟨hpos, fun b hb => ?_⟩
          obtain rfl := Except.ok.inj (hread.symm.trans hb)
          exact h
      rw [hheader, SegmentBounded]
      dsimp only
      rcases hsegment : loadSegment image (Phdr.ofBytes bytes) s with ⟨why | _, s₁⟩
      · rw [List.append_nil]
        constructor
        · rintro ⟨hops, hwhy⟩
          refine ⟨⟨hops, fun h => hwhy (congrArg _ (Except.error.inj h))⟩, fun b s₂ hb h => ?_⟩
          cases hb
          rw [hsegment] at h
          cases h
        · rintro ⟨⟨hops, hwhy⟩, -⟩
          exact ⟨hops, fun h => hwhy (congrArg _ (Except.error.inj h))⟩
      · rw [List.forall_mem_append]
        constructor
        · rintro ⟨⟨hops, hrest⟩, hfine⟩
          refine ⟨⟨hops, by simp⟩, fun b s₂ hb h => ?_⟩
          cases hb
          rw [hsegment] at h
          cases h
          exact ⟨hrest, hfine⟩
        · rintro ⟨⟨hops, -⟩, hnext⟩
          obtain ⟨hrest, hfine⟩ := hnext bytes s₁ rfl hsegment
          exact ⟨⟨hops, hrest⟩, hfine⟩
  · refine iff_of_false (fun h => hpos ?_) fun h => hpos h.1.place
    have hsum := h.1.2.1
    rwa [Nat.mod_eq_of_lt h.1.1] at hsum

theorem from_bounded_iff (n : ℕ) : ∀ (i : ℕ) (s : Paged), FromBounded image eh n i s ↔
    ∀ k < n, ∀ s', loadFrom image eh k i s = (.ok (), s') → HeaderFits image eh (i + k) s' := by
  induction n with
  | zero => exact fun i s => iff_of_true ⟨nofun, nofun⟩ nofun
  | succ n ih =>
    intro i s
    rw [from_bounded_succ]
    constructor
    · rintro ⟨hheader, hrest⟩ k hk s' hload
      cases k with
      | zero =>
        cases hload
        exact hheader
      | succ k =>
        obtain ⟨bytes, s₁, hread, hsegment, hload⟩ := loadFrom_succ_ok.mp hload
        have hfits := (ih (i + 1) s₁).mp (hrest bytes s₁ hread hsegment) k (by omega) s' hload
        rwa [Nat.add_assoc, Nat.add_comm 1 k] at hfits
    · intro h
      refine ⟨h 0 (Nat.succ_pos n) s rfl, fun bytes s₁ hread hsegment => (ih (i + 1) s₁).mpr ?_⟩
      intro k hk s' hload
      have hfits := h (k + 1) (by omega) s' (loadFrom_succ_ok.mpr ⟨bytes, s₁, hread, hsegment, hload⟩)
      rwa [Nat.add_assoc, Nat.add_comm 1 k]

/-- An image whose header does not pass the checks. -/
theorem load_of_none (s : Paged) (h : header image = none) :
    loadOps s image = readOps image 0 EHDR_SIZE ∧ (load s image).1 ≠ .error .fault := by
  rw [header] at h
  rw [loadOps, load]
  have hfault : read image 0 EHDR_SIZE ≠ .error .fault := read_ne_fault (by decide)
  cases hread : read image 0 EHDR_SIZE with
  | error why =>
    rw [hread] at hfault
    exact ⟨List.append_nil _, fun h => hfault (congrArg _ (Except.error.inj h))⟩
  | ok bytes =>
    rw [hread] at h
    dsimp only at h ⊢
    split_ifs at h ⊢
    all_goals first
      | exact ⟨List.append_nil _, nofun⟩
      | tauto

theorem load_of_some (s : Paged) (h : header image = some eh) :
    loadOps s image = readOps image 0 EHDR_SIZE ++ fromOps image eh eh.phnum 0 s ∧
      ((load s image).1 = .error .fault ↔ (loadFrom image eh eh.phnum 0 s).1 = .error .fault) := by
  rw [header] at h
  rw [loadOps, load]
  cases hread : read image 0 EHDR_SIZE with
  | error why =>
    rw [hread] at h
    cases h
  | ok bytes =>
    rw [hread] at h
    dsimp only at h ⊢
    split_ifs at h ⊢ with hchecks
    all_goals first
      | tauto
      | skip
    cases h
    refine ⟨rfl, ?_⟩
    match loadFrom image (Ehdr.ofBytes bytes) (Ehdr.ofBytes bytes).phnum 0 s with
    | (.error why, s₁) =>
      constructor <;> exact fun h => congrArg _ (Except.error.inj h)
    | (.ok (), s₁) => exact iff_of_false nofun nofun

/-- An image is loaded, or refused, without leaving it and without a sum or difference wrapping around,
exactly if the sums for each header that `load` comes to fit in 64 bits. -/
theorem load_bounded_iff (s : Paged) (image : List UInt8) : Bounded s image ↔
    ∀ eh, header image = some eh → ∀ i < eh.phnum, ∀ s',
      loadFrom image eh i 0 s = (.ok (), s') → HeaderFits image eh i s' := by
  have hread : ∀ op ∈ readOps image 0 EHDR_SIZE, op.Fine image := read_bounded_iff.mpr (by decide)
  cases hheader : header image with
  | none =>
    obtain ⟨hops, hfault⟩ := load_of_none s hheader
    exact iff_of_true ⟨hops ▸ hread, hfault⟩ nofun
  | some eh =>
    obtain ⟨hops, hfault⟩ := load_of_some s hheader
    have hfrom : Bounded s image ↔ FromBounded image eh eh.phnum 0 s := by
      constructor
      · intro h
        have hfine := h.fine
        rw [hops, List.forall_mem_append] at hfine
        exact ⟨hfine.2, fun hf => h.returns (hfault.mpr hf)⟩
      · intro h
        refine ⟨?_, fun hf => h.2 (hfault.mp hf)⟩
        rw [hops]
        exact List.forall_mem_append.mpr ⟨hread, h.1⟩
    rw [hfrom, from_bounded_iff]
    simp only [Nat.zero_add, Option.some.injEq, forall_eq']

end

/-- A header whose only program header is said to be in the last 56 bytes of the address space. -/
def wrapped : List UInt8 :=
  ELF_MAGIC ++ [ELFCLASS64, ELFDATA2LSB] ++ Bytes.leList 10 1 ++ Bytes.leList 2 ET_EXEC ++
    Bytes.leList 2 EM_AARCH64 ++ Bytes.leList 4 1 ++ Bytes.leList 8 0x400000 ++
    Bytes.leList 8 (2 ^ 64 - PHDR_SIZE) ++ Bytes.leList 8 0 ++ Bytes.leList 4 0 ++
    Bytes.leList 2 EHDR_SIZE ++ Bytes.leList 2 PHDR_SIZE ++ Bytes.leList 2 1 ++ Bytes.leList 6 0

/-- The end of that header is 0, which is in the image. -/
theorem wrapped_read : ¬∀ (s : Paged) (image : List UInt8), Bounded s image := by
  intro h
  exact (h fresh wrapped).returns (by decide)

end JungeyOs.Elf
