import JungeyOs.Mm.Uaccess
import JungeyOs.Mm.UserBytes
import Mathlib.Data.List.Sublists

/-!
# The ELF loader

Model of `load` (`kernel/src/elf.rs`, lines 52–128): each PT_LOAD segment is rounded outward to pages,
the pages are mapped to new frames, and the bytes of the file are copied in.

Numbers are read from the image byte by byte. Arithmetic wraps around at 2^64, as in a release build.

Results:
* `load_spec`: what a process sees is what the last segment to cover a page has put there.
* `loaded_iff`: every segment is there as the image has it exactly when no later segment covers a page
  where an earlier one has a byte that is not zero.
-/

namespace JungeyOs.Elf

open Mm (PAGE_SIZE Paged Perm pageAlignDown pageAlignUp chunk storeBytes)

def ELF_MAGIC : List UInt8 := [0x7f, 0x45, 0x4c, 0x46]
def ELFCLASS64 : UInt8 := 2
def ELFDATA2LSB : UInt8 := 1
def ET_EXEC : ℕ := 2
def EM_AARCH64 : ℕ := 183
def PT_LOAD : ℕ := 1
def PF_X : ℕ := 1
def PF_W : ℕ := 2

/-! ## The headers -/

/-- The little-endian number of `len` bytes at an offset of a header. -/
def field (bytes : List UInt8) (offset len : ℕ) : ℕ := Bytes.ofLE ((bytes.drop offset).take len)

/-- `Ehdr` (lines 23–39), but for the fields that are not looked at. -/
structure Ehdr where
  ident : List UInt8
  etype : ℕ
  machine : ℕ
  entry : ℕ
  phoff : ℕ
  phentsize : ℕ
  phnum : ℕ

def Ehdr.ofBytes (bytes : List UInt8) : Ehdr where
  ident := bytes.take 16
  etype := field bytes 16 2
  machine := field bytes 18 2
  entry := field bytes 24 8
  phoff := field bytes 32 8
  phentsize := field bytes 54 2
  phnum := field bytes 56 2

/-- `Phdr` (lines 41–51), but for the fields that are not looked at. -/
structure Phdr where
  ptype : ℕ
  flags : ℕ
  offset : ℕ
  vaddr : ℕ
  filesz : ℕ
  memsz : ℕ

def Phdr.ofBytes (bytes : List UInt8) : Phdr where
  ptype := field bytes 0 4
  flags := field bytes 4 4
  offset := field bytes 8 8
  vaddr := field bytes 16 8
  filesz := field bytes 32 8
  memsz := field bytes 40 8

/-- `size_of::<Ehdr>()` and `size_of::<Phdr>()`. -/
def EHDR_SIZE : ℕ := 64
def PHDR_SIZE : ℕ := 56

/-- Why `load` stops: with an error, or because the kernel panics or reads outside of the image. -/
inductive Stop
  | error (why : String)
  | fault
  deriving DecidableEq

/-- `read` (lines 52–57). Where the end of the header wraps around, the check does not see it. -/
def read (image : List UInt8) (pos size : ℕ) : Except Stop (List UInt8) :=
  if image.length < (pos + size) % 2 ^ 64 then .error (.error "ELF truncated")
  else if image.length < pos + size then .error .fault
  else .ok ((image.drop pos).take size)

/-- The permissions of a segment (lines 92–98). -/
def Phdr.perm (ph : Phdr) : Perm :=
  if ph.flags &&& PF_X ≠ 0 then .UserText
  else if ph.flags &&& PF_W ≠ 0 then .UserData
  else .UserReadOnly

/-- How many pages a segment is mapped to (lines 87–90). -/
def Phdr.pages (ph : Phdr) : ℕ :=
  let start := pageAlignDown ph.vaddr
  let stop := pageAlignUp ((ph.vaddr + ph.memsz) % 2 ^ 64) % 2 ^ 64
  (stop + 2 ^ 64 - start) % 2 ^ 64 / PAGE_SIZE

/-- Where the bytes of a segment end in the image (line 105). -/
def Phdr.srcEnd (ph : Phdr) : ℕ := (ph.offset + ph.filesz) % 2 ^ 64

/-! ## The loader -/

/-- The loop that copies the bytes of the file (lines 110–123). -/
def copyIn (vaddr : ℕ) (bytes : List UInt8) : (fuel done : ℕ) → Paged → Except Stop Unit × Paged
  | 0, _, s => (.ok (), s)
  | fuel + 1, done, s =>
    if done < bytes.length then
      match s.translate (vaddr + done) with
      | none => (.error (.error "segment page vanished"), s)
      | some pa =>
        let n := chunk vaddr bytes.length done
        copyIn vaddr bytes fuel (done + n)
          { s with mem := storeBytes s.mem pa ((bytes.drop done).take n) }
    else (.ok (), s)

/-- The body of the loop over the program headers (lines 78–124). -/
def loadSegment (image : List UInt8) (ph : Phdr) (s : Paged) : Except Stop Unit × Paged :=
  if ph.ptype ≠ PT_LOAD ∨ ph.memsz = 0 then (.ok (), s)
  else if ph.memsz < ph.filesz then (.error (.error "segment filesz exceeds memsz"), s)
  else
    match s.mapAnonymous (pageAlignDown ph.vaddr) ph.pages ph.perm with
    | (.error why, s) => (.error (.error why), s)
    | (.ok (), s) =>
      if image.length < ph.srcEnd then (.error (.error "segment past end of image"), s)
      else if ph.srcEnd < ph.offset then (.error .fault, s)
      else
        let bytes := (image.take ph.srcEnd).drop ph.offset
        copyIn ph.vaddr bytes bytes.length 0 s

/-- The loop over the program headers (lines 76–125) from header `i` on. -/
def loadFrom (image : List UInt8) (eh : Ehdr) : (n i : ℕ) → Paged → Except Stop Unit × Paged
  | 0, _, s => (.ok (), s)
  | n + 1, i, s =>
    match read image ((eh.phoff + i * eh.phentsize) % 2 ^ 64) PHDR_SIZE with
    | .error why => (.error why, s)
    | .ok bytes =>
      match loadSegment image (Phdr.ofBytes bytes) s with
      | (.error why, s) => (.error why, s)
      | (.ok (), s) => loadFrom image eh n (i + 1) s

/-- `load` (lines 60–128). -/
def load (s : Paged) (image : List UInt8) : Except Stop ℕ × Paged :=
  match read image 0 EHDR_SIZE with
  | .error why => (.error why, s)
  | .ok bytes =>
    let eh := Ehdr.ofBytes bytes
    if eh.ident.take 4 ≠ ELF_MAGIC then (.error (.error "not an ELF"), s)
    else if eh.ident[4]? ≠ some ELFCLASS64 ∨ eh.ident[5]? ≠ some ELFDATA2LSB then
      (.error (.error "not 64-bit little-endian"), s)
    else if eh.etype ≠ ET_EXEC then (.error (.error "not a static executable"), s)
    else if eh.machine ≠ EM_AARCH64 then (.error (.error "wrong architecture"), s)
    else
      match loadFrom image eh eh.phnum 0 s with
      | (.error why, s) => (.error why, s)
      | (.ok (), s) => (.ok eh.entry, s)

/-! ## What is to be there -/

/-- The segment of a program header, if it has one that is loaded. -/
def segmentAt (image : List UInt8) (eh : Ehdr) (i : ℕ) : Option Phdr :=
  match read image ((eh.phoff + i * eh.phentsize) % 2 ^ 64) PHDR_SIZE with
  | .error _ => none
  | .ok bytes =>
    let ph := Phdr.ofBytes bytes
    if ph.ptype ≠ PT_LOAD ∨ ph.memsz = 0 then none else some ph

/-- The segments of headers `i` to `i + n`, in their order. -/
def segmentsFrom (image : List UInt8) (eh : Ehdr) (n i : ℕ) : List Phdr :=
  (List.range' i n).filterMap (segmentAt image eh)

def segments (image : List UInt8) : List Phdr :=
  let eh := Ehdr.ofBytes (image.take EHDR_SIZE)
  segmentsFrom image eh eh.phnum 0

namespace Phdr

/-- The byte at `vaddr + k`. -/
def byte (ph : Phdr) (image : List UInt8) (k : ℕ) : UInt8 :=
  if k < ph.filesz then image[ph.offset + k]?.getD 0 else 0

/-- The byte at an address of a page that the segment covers. -/
def fill (ph : Phdr) (image : List UInt8) (v : ℕ) : UInt8 :=
  if ph.vaddr ≤ v then ph.byte image (v - ph.vaddr) else 0

/-- The segment has bytes in the page. -/
def Covers (ph : Phdr) (page : ℕ) : Prop :=
  ph.vaddr / PAGE_SIZE ≤ page ∧ page ≤ (ph.vaddr + ph.memsz - 1) / PAGE_SIZE

instance (ph : Phdr) (page : ℕ) : Decidable (ph.Covers page) :=
  inferInstanceAs (Decidable (_ ∧ _))

/-- The byte ranges have no byte in common. -/
def Disjoint (a b : Phdr) : Prop := a.vaddr + a.memsz ≤ b.vaddr ∨ b.vaddr + b.memsz ≤ a.vaddr

instance (a b : Phdr) : Decidable (a.Disjoint b) := inferInstanceAs (Decidable (_ ∨ _))

/-- In the pages that the segment `b` covers, `a` has no byte that is not zero. -/
def Spares (image : List UInt8) (a b : Phdr) : Prop :=
  ∀ k < a.filesz, b.Covers ((a.vaddr + k) / PAGE_SIZE) → image[a.offset + k]?.getD 0 = 0

end Phdr

/-- Each segment is there as the image has it. -/
def Loaded (s : Paged) (image : List UInt8) : Prop :=
  ∀ ph ∈ segments image, ∀ k < ph.memsz, s.user (ph.vaddr + k) = some (ph.byte image k)

instance (s : Paged) (image : List UInt8) : Decidable (Loaded s image) :=
  inferInstanceAs (Decidable (∀ ph ∈ segments image, ∀ k < ph.memsz, _))

/-- What a process sees when the segments have been loaded, the last of them first: the pages that a
segment covers are its own. -/
def seen (image : List UInt8) : List Phdr → ℕ → Option UInt8
  | [], _ => none
  | ph :: done, v =>
    if ph.Covers (v / PAGE_SIZE) then some (ph.fill image v) else seen image done v

/-! ## One segment -/

section

variable {image bytes : List UInt8} {s s' : Paged} {ph a b : Phdr} {eh : Ehdr} {vaddr : ℕ}

theorem copyIn_spec (hlow : vaddr + bytes.length ≤ 2 ^ 48) (fuel : ℕ) : ∀ {done : ℕ} {s : Paged},
    s.Private → bytes.length ≤ done + fuel → copyIn vaddr bytes fuel done s = (.ok (), s') →
      s'.Private ∧ ∀ w < 2 ^ 48, s'.user w =
        if vaddr + done ≤ w ∧ w < vaddr + bytes.length then bytes[w - vaddr]? else s.user w := by
  induction fuel with
  | zero =>
    intro done s hs hfuel hc
    cases hc
    refine ⟨hs, fun w _ => ?_⟩
    rw [if_neg (by omega)]
  | succ fuel ih =>
    intro done s hs hfuel hc
    rw [copyIn] at hc
    by_cases hdone : done < bytes.length
    · rw [if_pos hdone] at hc
      cases hpa : s.translate (vaddr + done) with
      | none =>
        rw [hpa] at hc
        cases hc
      | some pa =>
        rw [hpa] at hc
        dsimp only at hc
        have hpos : 0 < chunk vaddr bytes.length done := Mm.chunk_pos hdone
        have hfits : (vaddr + done) % PAGE_SIZE + chunk vaddr bytes.length done ≤ PAGE_SIZE :=
          Mm.chunk_fits
        have hend : done + chunk vaddr bytes.length done ≤ max done bytes.length := Mm.chunk_le
        generalize chunk vaddr bytes.length done = n at hc hpos hfits hend
        have hlen : ((bytes.drop done).take n).length = n := by
          rw [List.length_take, List.length_drop]
          omega
        obtain ⟨hprivate, hstored⟩ := hs.store (by omega) hpa (hlen ▸ hfits)
        obtain ⟨hprivate', hrest⟩ := ih hprivate (by omega) hc
        refine ⟨hprivate', fun w hw => ?_⟩
        rw [hrest w hw, hstored w hw, hlen]
        by_cases hin : vaddr + done ≤ w ∧ w < vaddr + done + n
        · have hoffset : done + (w - (vaddr + done)) = w - vaddr := by omega
          rw [if_neg (by omega), if_pos hin, if_pos (by omega), List.getElem?_take_of_lt (by omega),
            List.getElem?_drop, hoffset]
        · rw [if_neg hin]
          exact if_congr (by omega) rfl rfl
    · rw [if_neg hdone] at hc
      cases hc
      refine ⟨hs, fun w _ => ?_⟩
      rw [if_neg (by omega)]

/-- The pages of a segment below 2^47 end with its last byte. -/
theorem pages_spec (hlow : ph.vaddr + ph.memsz ≤ 2 ^ 47) (hpos : ph.memsz ≠ 0) :
    pageAlignDown ph.vaddr / PAGE_SIZE = ph.vaddr / PAGE_SIZE ∧
      ph.vaddr / PAGE_SIZE + ph.pages = (ph.vaddr + ph.memsz - 1) / PAGE_SIZE + 1 := by
  have hsize : PAGE_SIZE = 4096 := rfl
  have hstop : pageAlignUp ((ph.vaddr + ph.memsz) % 2 ^ 64) % 2 ^ 64 =
      ((ph.vaddr + ph.memsz - 1) / 4096 + 1) * 4096 := by
    rw [pageAlignUp, hsize]
    omega
  rw [Phdr.pages, hstop, pageAlignDown, hsize]
  omega

/-- The bytes of a segment in the image. -/
theorem bytes_spec (hlt : ph.filesz < 2 ^ 64) (hend : ph.srcEnd ≤ image.length)
    (hwrap : ph.offset ≤ ph.srcEnd) : ((image.take ph.srcEnd).drop ph.offset).length = ph.filesz ∧
      ∀ k < ph.filesz, ((image.take ph.srcEnd).drop ph.offset)[k]? = some (ph.byte image k) := by
  have hsrc : ph.srcEnd = ph.offset + ph.filesz := by
    rw [Phdr.srcEnd] at hwrap ⊢
    omega
  rw [hsrc] at hend ⊢
  constructor
  · rw [List.length_drop, List.length_take]
    omega
  · intro k hk
    have hin : ph.offset + k < image.length := by omega
    rw [Phdr.byte, if_pos hk, List.getElem?_drop, List.getElem?_take_of_lt (by omega),
      List.getElem?_eq_getElem hin]
    rfl

/-- A segment below 2^47 that is loaded. -/
theorem loadSegment_spec (hs : s.Private) (hload : ¬(ph.ptype ≠ PT_LOAD ∨ ph.memsz = 0))
    (hlow : ph.vaddr + ph.memsz ≤ 2 ^ 47) (h : loadSegment image ph s = (.ok (), s')) :
    s'.Private ∧ ph.filesz ≤ ph.memsz ∧ ∀ v < 2 ^ 48, s'.user v =
      if ph.Covers (v / PAGE_SIZE) then some (ph.fill image v) else s.user v := by
  obtain ⟨hstart, hpages⟩ := pages_spec hlow fun hzero => hload (.inr hzero)
  rw [loadSegment, if_neg hload] at h
  by_cases hsz : ph.memsz < ph.filesz
  · rw [if_pos hsz] at h
    cases h
  rw [if_neg hsz] at h
  match hm : s.mapAnonymous (pageAlignDown ph.vaddr) ph.pages ph.perm with
  | (.error why, s₁) =>
    rw [hm] at h
    cases h
  | (.ok (), s₁) =>
    rw [hm] at h
    dsimp only at h
    by_cases hend : image.length < ph.srcEnd
    · rw [if_pos hend] at h
      cases h
    rw [if_neg hend] at h
    by_cases hwrap : ph.srcEnd < ph.offset
    · rw [if_pos hwrap] at h
      cases h
    rw [if_neg hwrap] at h
    have hsize : PAGE_SIZE = 4096 := rfl
    have hva : pageAlignDown ph.vaddr + ph.pages * PAGE_SIZE ≤ 2 ^ 48 := by
      rw [pageAlignDown, ← Nat.add_mul, hpages, hsize]
      omega
    obtain ⟨hprivate, hnew⟩ := hs.mapAnonymous hva hm
    obtain ⟨hlen, hbytes⟩ := bytes_spec (show ph.filesz < 2 ^ 64 by omega) (Nat.not_lt.mp hend)
      (Nat.not_lt.mp hwrap)
    obtain ⟨hprivate', hcopied⟩ := copyIn_spec (by omega) _ hprivate (by omega) h
    refine ⟨hprivate', by omega, fun v hv => ?_⟩
    have hcovers : (pageAlignDown ph.vaddr / PAGE_SIZE ≤ v / PAGE_SIZE ∧
        v / PAGE_SIZE < pageAlignDown ph.vaddr / PAGE_SIZE + ph.pages) ↔ ph.Covers (v / PAGE_SIZE) := by
      rw [hstart, hpages, Phdr.Covers]
      omega
    rw [hcopied v hv, hnew v hv, hlen, if_congr hcovers rfl rfl, Nat.add_zero]
    by_cases hin : ph.vaddr ≤ v ∧ v < ph.vaddr + ph.filesz
    · have hpage : ph.Covers (v / PAGE_SIZE) := by
        rw [Phdr.Covers, hsize]
        omega
      rw [if_pos hin, if_pos hpage, Phdr.fill, if_pos hin.1, hbytes _ (by omega)]
    · rw [if_neg hin]
      refine if_congr Iff.rfl (congrArg some ?_) rfl
      rw [Phdr.fill]
      by_cases hle : ph.vaddr ≤ v
      · rw [if_pos hle, Phdr.byte, if_neg (by omega)]
      · rw [if_neg hle]

/-! ## All segments -/

theorem loadFrom_spec (n : ℕ) : ∀ {i : ℕ} {s : Paged} {done : List Phdr}, s.Private →
    (∀ v < 2 ^ 48, s.user v = seen image done v) →
    (∀ ph ∈ segmentsFrom image eh n i, ph.vaddr + ph.memsz ≤ 2 ^ 47) →
    loadFrom image eh n i s = (.ok (), s') →
      (∀ ph ∈ segmentsFrom image eh n i, ph.filesz ≤ ph.memsz) ∧
      ∀ v < 2 ^ 48, s'.user v = seen image ((segmentsFrom image eh n i).reverse ++ done) v := by
  induction n with
  | zero =>
    intro i s done hs hseen hlow h
    cases h
    exact ⟨nofun, hseen⟩
  | succ n ih =>
    intro i s done hs hseen hlow h
    rw [segmentsFrom, List.range'_succ] at hlow ⊢
    rw [loadFrom] at h
    cases hread : read image ((eh.phoff + i * eh.phentsize) % 2 ^ 64) PHDR_SIZE with
    | error why =>
      rw [hread] at h
      cases h
    | ok bytes =>
      rw [hread] at h
      dsimp only at h
      by_cases hskip : (Phdr.ofBytes bytes).ptype ≠ PT_LOAD ∨ (Phdr.ofBytes bytes).memsz = 0
      · have hnone : segmentAt image eh i = none := by
          rw [segmentAt, hread]
          exact if_pos hskip
        rw [loadSegment, if_pos hskip] at h
        rw [List.filterMap_cons_none hnone] at hlow ⊢
        exact ih hs hseen hlow h
      · have hsome : segmentAt image eh i = some (Phdr.ofBytes bytes) := by
          rw [segmentAt, hread]
          exact if_neg hskip
        rw [List.filterMap_cons_some hsome] at hlow ⊢
        match hsegment : loadSegment image (Phdr.ofBytes bytes) s with
        | (.error why, s₁) =>
          rw [hsegment] at h
          cases h
        | (.ok (), s₁) =>
          rw [hsegment] at h
          obtain ⟨hprivate, hsz, huser⟩ :=
            loadSegment_spec hs hskip (hlow _ List.mem_cons_self) hsegment
          have hseen' : ∀ v < 2 ^ 48, s₁.user v = seen image (Phdr.ofBytes bytes :: done) v := by
            intro v hv
            rw [huser v hv, seen, hseen v hv]
          obtain ⟨hszs, hall⟩ := ih hprivate hseen' (fun ph hph => hlow ph (.tail _ hph)) h
          refine ⟨List.forall_mem_cons.mpr ⟨hsz, hszs⟩, fun v hv => ?_⟩
          rw [hall v hv, List.reverse_cons, List.append_assoc]
          rfl

/-- After a new space has been loaded, a process sees in each page what the last segment to cover the
page has put there. -/
theorem load_spec {mem : Mm.Words} {supply : List ℕ} {entry : ℕ}
    (hcreate : Paged.create mem supply = some s) (hfresh : s.Fresh)
    (hlow : ∀ ph ∈ segments image, ph.vaddr + ph.memsz ≤ 2 ^ 47)
    (h : (load s image).1 = .ok entry) :
    (∀ ph ∈ segments image, ph.filesz ≤ ph.memsz) ∧
      ∀ v < 2 ^ 48, (load s image).2.user v = seen image (segments image).reverse v := by
  obtain ⟨hprivate, hnone⟩ := Paged.private_create hcreate hfresh
  unfold load at h ⊢
  cases hread : read image 0 EHDR_SIZE with
  | error why =>
    rw [hread] at h
    cases h
  | ok bytes =>
    have hbytes : bytes = image.take EHDR_SIZE := by
      unfold read at hread
      split_ifs at hread
      cases hread
      rfl
    rw [hread] at h
    dsimp only at h ⊢
    split_ifs at h ⊢
    match hall : loadFrom image (Ehdr.ofBytes bytes) (Ehdr.ofBytes bytes).phnum 0 s with
    | (.error why, s₁) =>
      rw [hall] at h
      cases h
    | (.ok (), s₁) =>
      rw [hbytes] at hall
      have hempty : ∀ v < 2 ^ 48, s.user v = seen image [] v := fun v _ => hnone v
      obtain ⟨hsz, huser⟩ := loadFrom_spec _ hprivate hempty hlow hall
      refine ⟨hsz, fun v hv => ?_⟩
      rw [huser v hv, List.append_nil]
      rfl

/-! ## Segments that share a page -/

theorem covers_self {k : ℕ} (hk : k < ph.memsz) : ph.Covers ((ph.vaddr + k) / PAGE_SIZE) :=
  ⟨Nat.div_le_div_right (by omega), Nat.div_le_div_right (by omega)⟩

theorem fill_self (ph : Phdr) (image : List UInt8) (k : ℕ) :
    ph.fill image (ph.vaddr + k) = ph.byte image k := by
  rw [Phdr.fill, if_pos (by omega), Nat.add_sub_cancel_left]

/-- Outside of its own bytes a segment leaves zeros. -/
theorem fill_disjoint {k : ℕ} (hd : b.Disjoint a) (hsz : b.filesz ≤ b.memsz) (hk : k < a.memsz) :
    b.fill image (a.vaddr + k) = 0 := by
  rw [Phdr.Disjoint] at hd
  rw [Phdr.fill]
  split_ifs with hle
  · rw [Phdr.byte, if_neg (by omega)]
  · rfl

section

variable {done : List Phdr} {k : ℕ}

/-- A later segment that covers the page of a byte has put a zero there. -/
theorem seen_of_covered (hsz : ∀ ph ∈ done, ph.filesz ≤ ph.memsz) (hd : done.Pairwise Phdr.Disjoint)
    (hsub : [b, a].Sublist done) (hk : k < a.memsz) (hcovers : b.Covers ((a.vaddr + k) / PAGE_SIZE)) :
    seen image done (a.vaddr + k) = some 0 := by
  induction done with
  | nil => cases hsub
  | cons c done ih =>
    obtain ⟨hc, hd⟩ := List.pairwise_cons.mp hd
    have hszc := hsz c List.mem_cons_self
    rw [seen]
    cases hsub with
    | cons _ hsub =>
      have ha : a ∈ done := hsub.subset (by simp)
      split_ifs with hpage
      · rw [fill_disjoint (hc a ha) hszc hk]
      · exact ih (fun ph hph => hsz ph (.tail _ hph)) hd hsub
    | cons_cons _ hsub =>
      have ha : a ∈ done := hsub.subset (by simp)
      rw [if_pos hcovers, fill_disjoint (hc a ha) hszc hk]

theorem seen_of_spares (hsz : ∀ ph ∈ done, ph.filesz ≤ ph.memsz) (hd : done.Pairwise Phdr.Disjoint)
    (hspares : done.Pairwise fun b a => a.Spares image b) (ha : a ∈ done) (hk : k < a.memsz) :
    seen image done (a.vaddr + k) = some (a.byte image k) := by
  induction done with
  | nil => cases ha
  | cons c done ih =>
    obtain ⟨hc, hd⟩ := List.pairwise_cons.mp hd
    obtain ⟨hspare, hspares⟩ := List.pairwise_cons.mp hspares
    rw [seen]
    rcases List.mem_cons.mp ha with rfl | ha
    · rw [if_pos (covers_self hk), fill_self]
    · split_ifs with hpage
      · rw [fill_disjoint (hc a ha) (hsz c List.mem_cons_self) hk, Phdr.byte]
        split_ifs with hfile
        · rw [hspare a ha k hfile hpage]
        · rfl
      · exact ih (fun ph hph => hsz ph (.tail _ hph)) hd hspares ha

end

theorem disjoint_comm : a.Disjoint b ↔ b.Disjoint a := or_comm

/-- An image whose segments are disjoint and below 2^47 has been loaded into a new space: every segment
is there if and only if no segment has a byte that is not zero in a page that a later one covers. -/
theorem loaded_iff {mem : Mm.Words} {supply : List ℕ} {entry : ℕ}
    (hcreate : Paged.create mem supply = some s) (hfresh : s.Fresh)
    (hlow : ∀ ph ∈ segments image, ph.vaddr + ph.memsz ≤ 2 ^ 47)
    (hdisjoint : (segments image).Pairwise Phdr.Disjoint) (h : (load s image).1 = .ok entry) :
    Loaded (load s image).2 image ↔ (segments image).Pairwise (Phdr.Spares image) := by
  obtain ⟨hsz, huser⟩ := load_spec hcreate hfresh hlow h
  have hsz' : ∀ ph ∈ (segments image).reverse, ph.filesz ≤ ph.memsz := fun ph hph =>
    hsz ph (List.mem_reverse.mp hph)
  have hdisjoint' : (segments image).reverse.Pairwise Phdr.Disjoint := by
    rw [List.pairwise_reverse]
    exact hdisjoint.imp disjoint_comm.mp
  have hbyte : ∀ ph ∈ segments image, ∀ k < ph.memsz, (load s image).2.user (ph.vaddr + k) =
      seen image (segments image).reverse (ph.vaddr + k) := by
    intro ph hph k hk
    have hph := hlow ph hph
    exact huser _ (by omega)
  constructor
  · intro hloaded
    apply List.pairwise_iff_forall_sublist.mpr
    intro a b hsub k hk hcovers
    have ha : a ∈ segments image := hsub.subset (by simp)
    have hmem : k < a.memsz := hk.trans_le (hsz a ha)
    have hlater : [b, a].Sublist (segments image).reverse := hsub.reverse
    have hzero : seen image (segments image).reverse (a.vaddr + k) = some 0 :=
      seen_of_covered hsz' hdisjoint' hlater hmem hcovers
    rw [← hbyte a ha k hmem, hloaded a ha k hmem, Phdr.byte, if_pos hk] at hzero
    exact Option.some.inj hzero
  · intro hspares ph hph k hk
    have hspares' : (segments image).reverse.Pairwise fun b a => a.Spares image b :=
      List.pairwise_reverse.mpr hspares
    rw [hbyte ph hph k hk]
    exact seen_of_spares hsz' hdisjoint' hspares' (List.mem_reverse.mpr hph) hk

end

/-- An image of two segments of one byte each in the page at 0x400000. -/
def sharedPage : List UInt8 :=
  let segment (offset vaddr : ℕ) := Bytes.leList 4 PT_LOAD ++ Bytes.leList 4 PF_W ++
    Bytes.leList 8 offset ++ Bytes.leList 8 vaddr ++ Bytes.leList 8 vaddr ++ Bytes.leList 8 1 ++
    Bytes.leList 8 1 ++ Bytes.leList 8 1
  ELF_MAGIC ++ [ELFCLASS64, ELFDATA2LSB] ++ Bytes.leList 10 1 ++ Bytes.leList 2 ET_EXEC ++
    Bytes.leList 2 EM_AARCH64 ++ Bytes.leList 4 1 ++ Bytes.leList 8 0x400000 ++
    Bytes.leList 8 EHDR_SIZE ++ Bytes.leList 8 0 ++ Bytes.leList 4 0 ++ Bytes.leList 2 EHDR_SIZE ++
    Bytes.leList 2 PHDR_SIZE ++ Bytes.leList 2 2 ++ Bytes.leList 6 0 ++
    segment 176 0x400000 ++ segment 177 0x400800 ++ [0xaa, 0xbb]

/-- A new space, with the frames that the image needs. -/
def fresh : Paged :=
  { mem := fun _ _ => 0
    supply := [0x40001000, 0x40002000, 0x40003000, 0x40004000, 0x40005000]
    space := ⟨0x40000000, [0x40000000]⟩
    anon := [] }

theorem create_fresh : Paged.create (fun _ _ => 0)
    [0x40000000, 0x40001000, 0x40002000, 0x40003000, 0x40004000, 0x40005000] = some fresh := by
  rw [Paged.create, Function.update_eq_self]
  rfl

theorem fresh_fresh : fresh.Fresh := by
  refine ⟨?_, ?_, ?_, ?_⟩ <;> decide

theorem load_sharedPage : (load fresh sharedPage).1 = .ok 0x400000 := by
  decide +kernel

theorem low_sharedPage : ∀ ph ∈ segments sharedPage, ph.vaddr + ph.memsz ≤ 2 ^ 47 := by
  set_option maxRecDepth 20000 in decide

theorem disjoint_sharedPage : (segments sharedPage).Pairwise Phdr.Disjoint := by
  set_option maxRecDepth 20000 in decide

theorem loaded_iff_sharedPage : Loaded (load fresh sharedPage).2 sharedPage ↔
    (segments sharedPage).Pairwise (Phdr.Spares sharedPage) :=
  loaded_iff create_fresh fresh_fresh low_sharedPage disjoint_sharedPage load_sharedPage

/-- The second segment takes the page away from the first. -/
theorem segment_lost : ¬∀ (image : List UInt8) (mem : Mm.Words) (supply : List ℕ) (s : Paged)
    (entry : ℕ), Paged.create mem supply = some s → s.Fresh →
      (∀ ph ∈ segments image, ph.vaddr + ph.memsz ≤ 2 ^ 47) →
      (segments image).Pairwise Phdr.Disjoint → (load s image).1 = .ok entry →
      Loaded (load s image).2 image := by
  intro h
  have hlost : ¬Loaded (load fresh sharedPage).2 sharedPage := by
    decide +kernel
  exact hlost (h sharedPage _ _ fresh _ create_fresh fresh_fresh low_sharedPage disjoint_sharedPage
    load_sharedPage)

end JungeyOs.Elf
