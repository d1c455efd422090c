import JungeyOs.Mm.Uaccess
import JungeyOs.Mm.UserBytes

/-!
# Copies to and from memory

The copies of `kernel/src/mm/uaccess.rs`, lines 15–45, over the memory that holds the page tables
themselves. Each iteration translates its address in the memory as it is then. Ranges do not wrap
around.

Results:
* `Paged.copyFromUser_spec`: what a copy from a process returns, and when.
* `Paged.Copied`: what a copy to a process has done to memory after a number of bytes.
* `Paged.copies`: both copies, and reading back what was written.
-/

namespace JungeyOs.Mm

namespace Paged

/-! ## The copies -/

/-- `slice::from_raw_parts`: the `n` bytes from `pa` on. -/
def readBytes (mem : Words) (pa n : ℕ) : List UInt8 := (List.range n).map fun k => byteAt mem (pa + k)

/-- The loop of `copy_from_user` (lines 21–29). -/
def copyFromLoop (s : Paged) (uva len : ℕ) :
    (fuel : ℕ) → (out : List UInt8) → Except String (List UInt8)
  | 0, out => .ok out
  | fuel + 1, out =>
    if out.length < len then
      match s.translate (uva + out.length) with
      | none => .error "unmapped user address"
      | some pa => copyFromLoop s uva len fuel (out ++ readBytes s.mem pa (chunk uva len out.length))
    else .ok out

/-- `copy_from_user` (lines 15–31). -/
def copyFromUser (s : Paged) (uva len : ℕ) : Except String (List UInt8) :=
  if MAX_TRANSFER < len then .error "transfer too large" else copyFromLoop s uva len len []

/-- The loop of `copy_to_user` (lines 35–43). -/
def copyToLoop (uva : ℕ) (data : List UInt8) :
    (fuel done : ℕ) → Paged → Except String Unit × Paged
  | 0, _, s => (.ok (), s)
  | fuel + 1, done, s =>
    if done < data.length then
      match s.translate (uva + done) with
      | none => (.error "unmapped user address", s)
      | some pa =>
        let n := chunk uva data.length done
        copyToLoop uva data fuel (done + n)
          { s with mem := storeBytes s.mem pa ((data.drop done).take n) }
    else (.ok (), s)

/-- `copy_to_user` (lines 33–45). -/
def copyToUser (s : Paged) (uva : ℕ) (data : List UInt8) : Except String Unit × Paged :=
  copyToLoop uva data data.length 0 s

/-! ## Translation -/

/-- The tables that the walk to the table of level 3 reads, and that table. -/
def tablesFrom (mem : Words) (va : ℕ) : (left level table : ℕ) → List ℕ
  | 0, _, table => [table]
  | left + 1, level, table =>
    let e := mem table (index va level)
    table :: if e &&& PTE_VALID = 0 then [] else
      tablesFrom mem va left (level + 1) (e &&& ADDR_MASK).toNat

/-- The tables through which an address is translated. -/
def translators (s : Paged) (va : ℕ) : List ℕ := tablesFrom s.mem va 3 0 s.space.root

section

variable {s s' : Paged} {mem mem' : Words} {uva va pa len done n k p : ℕ} {data out : List UInt8}

theorem walkFrom_congr : ∀ {left level table : ℕ},
    (∀ t ∈ tablesFrom mem va left level table, mem' t = mem t) →
    walkFrom mem' va left level table = walkFrom mem va left level table ∧
      tablesFrom mem' va left level table = tablesFrom mem va left level table ∧
      ∀ t, walkFrom mem va left level table = some t → mem' t = mem t := by
  intro left
  induction left with
  | zero =>
    intro level table h
    refine ⟨rfl, rfl, fun t ht => ?_⟩
    obtain rfl := Option.some.inj ht
    exact h table List.mem_cons_self
  | succ left ih =>
    intro level table h
    have htable : mem' table = mem table := h table List.mem_cons_self
    unfold walkFrom tablesFrom
    rw [htable]
    by_cases he : mem table (index va level) &&& PTE_VALID = 0
    · simp only [if_pos he]
      exact ⟨trivial, trivial, fun t ht => by cases ht⟩
    · simp only [if_neg he]
      have hrest := @ih (level + 1) _ fun t ht => h t <| by
        rw [tablesFrom]
        simp only [if_neg he]
        exact List.mem_cons_of_mem _ ht
      exact ⟨hrest.1, congrArg _ hrest.2.1, hrest.2.2⟩

/-- An address is translated alike as long as its tables are the same. -/
theorem translate_congr (h : ∀ t ∈ s.translators va, mem' t = s.mem t) :
    ({ s with mem := mem' } : Paged).translate va = s.translate va ∧
      ({ s with mem := mem' } : Paged).translators va = s.translators va := by
  obtain ⟨hwalk, htables, hlast⟩ := walkFrom_congr h
  refine ⟨?_, htables⟩
  unfold translate
  rw [hwalk]
  cases ht : walkFrom s.mem va 3 0 s.space.root with
  | none => rfl
  | some t =>
    dsimp only
    rw [hlast t ht]

/-- Translation adds the offset in the page. -/
theorem translate_add (h : s.translate va = some pa) (hk : va % PAGE_SIZE + k < PAGE_SIZE) :
    s.translate (va + k) = some (pa + k) := by
  have hsize : PAGE_SIZE = 4096 := rfl
  rw [translate_eq] at h ⊢
  obtain ⟨f, hf, rfl⟩ := Option.map_eq_some_iff.mp h
  have hpage : pageOf (va + k) = pageOf va := by
    unfold pageOf
    rw [hsize] at hk ⊢
    omega
  rw [lookup_eq, leaf_congr hpage, ← lookup_eq, hf]
  refine congrArg some ?_
  rw [hsize] at hk ⊢
  show f + (va + k) % 4096 = f + va % 4096 + k
  omega

/-- The bytes of an iteration are translated with the first of them. -/
theorem translate_chunk (h : s.translate (uva + done) = some pa) (hk : k < chunk uva len done) :
    s.translate (uva + (done + k)) = some (pa + k) := by
  have hfits : (uva + done) % PAGE_SIZE + chunk uva len done ≤ PAGE_SIZE := chunk_fits
  rw [← Nat.add_assoc]
  exact translate_add h (by omega)

/-- Where an iteration copies, what is left to be mapped comes after it. -/
theorem isSome_after_chunk (h : s.translate (uva + done) = some pa) :
    (∀ i, done + chunk uva len done ≤ i → i < len → (s.translate (uva + i)).isSome) ↔
      ∀ i, done ≤ i → i < len → (s.translate (uva + i)).isSome := by
  refine ⟨fun hrest i hle hlt => ?_, fun hall i hle hlt => hall i (by omega) hlt⟩
  by_cases hi : i < done + chunk uva len done
  · obtain ⟨k, rfl⟩ := Nat.exists_eq_add_of_le hle
    have hk : k < chunk uva len done := by omega
    rw [translate_chunk h hk]
    rfl
  · exact hrest i (by omega) hlt

/-! ## From a process -/

/-- `out` are the first bytes of the range. -/
def Holds (s : Paged) (uva : ℕ) (out : List UInt8) : Prop :=
  ∀ i < out.length, ∃ pa, s.translate (uva + i) = some pa ∧ out[i]? = some (byteAt s.mem pa)

theorem length_readBytes (mem : Words) (pa n : ℕ) : (readBytes mem pa n).length = n := by
  simp [readBytes]

theorem Holds.append (h : s.Holds uva out) (hpa : s.translate (uva + out.length) = some pa) :
    s.Holds uva (out ++ readBytes s.mem pa (chunk uva len out.length)) := by
  intro i hi
  rw [List.length_append, length_readBytes] at hi
  by_cases hlt : i < out.length
  · obtain ⟨q, hq, hget⟩ := h i hlt
    exact ⟨q, hq, by rw [List.getElem?_append_left hlt, hget]⟩
  · obtain ⟨k, rfl⟩ := Nat.exists_eq_add_of_le (Nat.not_lt.mp hlt)
    have hk : k < chunk uva len out.length := by omega
    refine ⟨pa + k, translate_chunk hpa hk, ?_⟩
    rw [List.getElem?_append_right (by omega), Nat.add_sub_cancel_left]
    simp [readBytes, hk]

/-- The loop gets through exactly when the rest of the range is mapped. -/
theorem copyFromLoop_spec (fuel : ℕ) : ∀ {out : List UInt8}, s.Holds uva out → out.length ≤ len →
    len ≤ out.length + fuel →
    ((∃ bytes, copyFromLoop s uva len fuel out = .ok bytes) ↔
      ∀ i, out.length ≤ i → i < len → (s.translate (uva + i)).isSome) ∧
    ∀ bytes, copyFromLoop s uva len fuel out = .ok bytes → bytes.length = len ∧ s.Holds uva bytes := by
  induction fuel with
  | zero =>
    intro out hout hle hfuel
    have hlen : out.length = len := by omega
    refine ⟨iff_of_true ⟨out, rfl⟩ fun i hi hlt => by omega, fun bytes h => ?_⟩
    obtain rfl := Except.ok.inj h
    exact ⟨hlen, hout⟩
  | succ fuel ih =>
    intro out hout hle hfuel
    unfold copyFromLoop
    by_cases hdone : out.length < len
    · rw [if_pos hdone]
      cases hpa : s.translate (uva + out.length) with
      | none =>
        refine ⟨iff_of_false ?_ fun h => ?_, fun bytes h => by cases h⟩
        · rintro ⟨bytes, h⟩
          cases h
        · have hsome := h out.length le_rfl hdone
          rw [hpa] at hsome
          cases hsome
      | some pa =>
        have hpos : 0 < chunk uva len out.length := chunk_pos hdone
        have hmax : out.length + chunk uva len out.length ≤ max out.length len := chunk_le
        have hlen : (out ++ readBytes s.mem pa (chunk uva len out.length)).length =
            out.length + chunk uva len out.length := by rw [List.length_append, length_readBytes]
        have hmore : s.Holds uva (out ++ readBytes s.mem pa (chunk uva len out.length)) :=
          hout.append hpa
        have hrest := ih hmore (by omega) (by omega)
        rw [hlen, isSome_after_chunk hpa] at hrest
        exact hrest
    · rw [if_neg hdone]
      refine ⟨iff_of_true ⟨out, rfl⟩ fun i hi hlt => by omega, fun bytes h => ?_⟩
      obtain rfl := Except.ok.inj h
      exact ⟨by omega, hout⟩

/-- A copy from a process succeeds exactly when it is short enough and all of it is mapped. Then it
returns the bytes of memory at the translated addresses. -/
theorem copyFromUser_spec (s : Paged) (uva len : ℕ) :
    ((∃ bytes, s.copyFromUser uva len = .ok bytes) ↔
      len ≤ MAX_TRANSFER ∧ ∀ i < len, (s.translate (uva + i)).isSome) ∧
    ∀ bytes, s.copyFromUser uva len = .ok bytes → bytes.length = len ∧ s.Holds uva bytes := by
  unfold copyFromUser
  by_cases hlong : MAX_TRANSFER < len
  · rw [if_pos hlong]
    refine ⟨iff_of_false ?_ fun h => absurd h.1 (by omega), fun bytes h => by cases h⟩
    rintro ⟨bytes, h⟩
    cases h
  · rw [if_neg hlong]
    have hnil : s.Holds uva [] := fun i hi => absurd hi (Nat.not_lt_zero i)
    have hfuel : len ≤ ([] : List UInt8).length + len := by simp
    obtain ⟨hiff, hbytes⟩ := copyFromLoop_spec len hnil (Nat.zero_le len) hfuel
    refine ⟨hiff.trans ⟨fun h => ⟨by omega, fun i hi => h i (Nat.zero_le i) hi⟩,
      fun h i _ hi => h.2 i hi⟩, hbytes⟩

/-! ## To a process -/

/-- No byte of the range is in a table through which the range is translated. -/
def Apart (s : Paged) (uva n : ℕ) : Prop :=
  ∀ i < n, ∀ pa, s.translate (uva + i) = some pa → ∀ j < n,
    pageAlignDown pa ∉ s.translators (uva + j)

/-- What a copy of `data` has made of `s₀` after `done` bytes: a byte of memory holds what was copied
to it last, if anything was. -/
structure Copied (s₀ : Paged) (uva : ℕ) (data : List UInt8) (done : ℕ) (s : Paged) : Prop where
  same : s = { s₀ with mem := s.mem }
  translate : ∀ i < data.length, s.translate (uva + i) = s₀.translate (uva + i)
  translators : ∀ i < data.length, s.translators (uva + i) = s₀.translators (uva + i)
  kept : ∀ p, (∀ i < done, s₀.translate (uva + i) ≠ some p) → byteAt s.mem p = byteAt s₀.mem p
  last : ∀ i < done, ∀ p, s₀.translate (uva + i) = some p →
    (∀ j, i < j → j < done → s₀.translate (uva + j) ≠ some p) → data[i]? = some (byteAt s.mem p)

theorem Copied.refl (s : Paged) (uva : ℕ) (data : List UInt8) : Copied s uva data 0 s where
  same := rfl
  translate _ _ := rfl
  translators _ _ := rfl
  kept _ _ := rfl
  last _ hi := absurd hi (Nat.not_lt_zero _)

variable {s₀ : Paged}

/-- One iteration. -/
theorem Copied.chunk (h : Copied s₀ uva data done s) (hapart : s₀.Apart uva data.length)
    (hdone : done < data.length) (hpa : s.translate (uva + done) = some pa) :
    Copied s₀ uva data (done + chunk uva data.length done)
      { s with mem := storeBytes s.mem pa ((data.drop done).take (chunk uva data.length done)) } := by
  set n := Mm.chunk uva data.length done with hn
  set piece := (data.drop done).take n with hpiece
  have hmax : done + n ≤ max done data.length := chunk_le
  have hlen : piece.length = n := by
    rw [hpiece, List.length_take, List.length_drop]
    omega
  have hbyte : ∀ k < n, s₀.translate (uva + (done + k)) = some (pa + k) := fun k hk => by
    rw [← h.translate (done + k) (by omega)]
    exact translate_chunk hpa hk
  have hsame : ∀ i < data.length, ∀ t ∈ s.translators (uva + i),
      storeBytes s.mem pa piece t = s.mem t := by
    intro i hi t ht
    refine storeBytes_of_ne fun k hk hframe => ?_
    rw [hlen] at hk
    rw [h.translators i hi] at ht
    exact hapart (done + k) (by omega) (pa + k) (hbyte k hk) i hi (hframe ▸ ht)
  -- the bytes that are copied are those of the piece
  have hhit : ∀ p, pa ≤ p → p < pa + n → ∃ k < n, s₀.translate (uva + (done + k)) = some p := by
    intro p hle hlt
    obtain ⟨k, rfl⟩ := Nat.exists_eq_add_of_le hle
    exact ⟨k, by omega, hbyte k (by omega)⟩
  have hmiss : ∀ p, (∀ j, done ≤ j → j < done + n → s₀.translate (uva + j) ≠ some p) →
      byteAt (storeBytes s.mem pa piece) p = byteAt s.mem p := by
    intro p hp
    rw [byteAt_storeBytes, hlen, if_neg]
    rintro ⟨hle, hlt⟩
    obtain ⟨k, hk, hget⟩ := hhit p hle hlt
    exact hp (done + k) (by omega) (by omega) hget
  refine ⟨?_, fun i hi => ?_, fun i hi => ?_, fun p hp => ?_, fun i hi p hget hlast => ?_⟩
  · rw [h.same]
  · exact (translate_congr (hsame i hi)).1.trans (h.translate i hi)
  · exact (translate_congr (hsame i hi)).2.trans (h.translators i hi)
  · show byteAt (storeBytes s.mem pa piece) p = byteAt s₀.mem p
    rw [hmiss p fun j _ hj => hp j hj, h.kept p fun j hj => hp j (by omega)]
  · show data[i]? = some (byteAt (storeBytes s.mem pa piece) p)
    by_cases hlt : i < done
    · rw [hmiss p fun j hle hj => hlast j (by omega) hj]
      exact h.last i hlt p hget fun j hij hj => hlast j hij (by omega)
    · obtain ⟨k, rfl⟩ := Nat.exists_eq_add_of_le (Nat.not_lt.mp hlt)
      have hk : k < n := by omega
      obtain rfl := Option.some.inj ((hbyte k hk).symm.trans hget)
      have hpieceget : piece[k]? = data[done + k]? := by
        rw [hpiece, List.getElem?_take_of_lt hk, List.getElem?_drop]
      have hin : done + k < data.length := by omega
      rw [byteAt_storeBytes, hlen, if_pos ⟨by omega, by omega⟩, Nat.add_sub_cancel_left, hpieceget,
        List.getElem?_eq_getElem hin, Option.getD_some]

/-- The loop gets through exactly when the rest of the range is mapped, and has then copied all. -/
theorem copyToLoop_spec (hapart : s₀.Apart uva data.length) (fuel : ℕ) : ∀ {done : ℕ} {s : Paged},
    Copied s₀ uva data done s → done ≤ data.length → data.length ≤ done + fuel →
    ((copyToLoop uva data fuel done s).1 = .ok () ↔
      ∀ i, done ≤ i → i < data.length → (s₀.translate (uva + i)).isSome) ∧
    ((copyToLoop uva data fuel done s).1 = .ok () →
      Copied s₀ uva data data.length (copyToLoop uva data fuel done s).2) := by
  induction fuel with
  | zero =>
    intro done s h hle hfuel
    have hdone : done = data.length := by omega
    exact ⟨iff_of_true rfl fun i hi hlt => by omega, fun _ => hdone ▸ h⟩
  | succ fuel ih =>
    intro done s h hle hfuel
    unfold copyToLoop
    by_cases hdone : done < data.length
    · rw [if_pos hdone]
      cases hpa : s.translate (uva + done) with
      | none =>
        have hnone := (h.translate done hdone).symm.trans hpa
        refine ⟨iff_of_false (fun h => by cases h) fun h => ?_, fun h => by cases h⟩
        have hsome := h done le_rfl hdone
        rw [hnone] at hsome
        cases hsome
      | some pa =>
        have hpos : 0 < Mm.chunk uva data.length done := chunk_pos hdone
        have hmax : done + Mm.chunk uva data.length done ≤ max done data.length := chunk_le
        have hrest := ih (h.chunk hapart hdone hpa) (by omega) (by omega)
        rw [isSome_after_chunk ((h.translate done hdone).symm.trans hpa)] at hrest
        exact hrest
    · rw [if_neg hdone]
      have hend : done = data.length := by omega
      exact ⟨iff_of_true rfl fun i hi hlt => by omega, fun _ => hend ▸ h⟩

/-- A copy to a process succeeds exactly when all of the range is mapped, and it has then copied all. -/
theorem copyToUser_spec (hapart : s.Apart uva data.length) :
    ((s.copyToUser uva data).1 = .ok () ↔ ∀ i < data.length, (s.translate (uva + i)).isSome) ∧
    ((s.copyToUser uva data).1 = .ok () →
      Copied s uva data data.length (s.copyToUser uva data).2) := by
  obtain ⟨hiff, hcopied⟩ := copyToLoop_spec hapart data.length (.refl s uva data) (Nat.zero_le _)
    (by omega)
  exact ⟨hiff.trans ⟨fun h i hi => h i (Nat.zero_le i) hi, fun h i _ hi => h i hi⟩, hcopied⟩

/-! ## Reading back -/

/-- Each page of the range is mapped to a frame of its own. -/
def OwnFrames (s : Paged) (uva n : ℕ) : Prop :=
  ∀ i < n, ∀ j < n, ∀ p q, s.translate (uva + i) = some p → s.translate (uva + j) = some q →
    pageAlignDown p = pageAlignDown q → (uva + i) / PAGE_SIZE = (uva + j) / PAGE_SIZE

theorem translate_mod (h : s.translate va = some p) : p % PAGE_SIZE = va % PAGE_SIZE := by
  rw [translate_eq] at h
  obtain ⟨f, hf, rfl⟩ := Option.map_eq_some_iff.mp h
  obtain ⟨a, rfl⟩ := dvd_lookup hf
  show (PAGE_SIZE * a + va % PAGE_SIZE) % PAGE_SIZE = va % PAGE_SIZE
  rw [Nat.mul_add_mod, Nat.mod_mod]

/-- No two bytes of the range are translated to one address. -/
theorem OwnFrames.inj (h : s.OwnFrames uva n) {i j : ℕ} (hi : i < n) (hj : j < n)
    (hip : s.translate (uva + i) = some p) (hjp : s.translate (uva + j) = some p) : i = j := by
  have hsize : PAGE_SIZE = 4096 := rfl
  have hpage := h i hi j hj p p hip hjp rfl
  have hoffset := (translate_mod hip).symm.trans (translate_mod hjp)
  rw [hsize] at hpage hoffset
  omega

/-- Where the frames differ, every byte is where it was copied to. -/
theorem Copied.byte (h : Copied s uva data data.length s') (hown : s.OwnFrames uva data.length)
    {i : ℕ} (hi : i < data.length) (hp : s.translate (uva + i) = some p) :
    data[i]? = some (byteAt s'.mem p) :=
  h.last i hi p hp fun _ hij hj hjp => hij.ne (hown.inj hi hj hp hjp)

/-- A part of the range, no longer than a transfer may be, is read back. -/
theorem Copied.readBack (h : Copied s uva data data.length s') (hown : s.OwnFrames uva data.length)
    (hall : ∀ i < data.length, (s.translate (uva + i)).isSome) {first : ℕ}
    (hfirst : first + len ≤ data.length) (hlen : len ≤ MAX_TRANSFER) :
    s'.copyFromUser (uva + first) len = .ok ((data.drop first).take len) := by
  have htranslate : ∀ i < len, s'.translate (uva + first + i) = s.translate (uva + (first + i)) :=
    fun i hi => by rw [Nat.add_assoc, h.translate (first + i) (by omega)]
  obtain ⟨hiff, hspec⟩ := copyFromUser_spec s' (uva + first) len
  obtain ⟨bytes, hbytes⟩ := hiff.mpr ⟨hlen, fun i hi => by
    rw [htranslate i hi]
    exact hall (first + i) (by omega)⟩
  obtain ⟨hcount, hholds⟩ := hspec bytes hbytes
  rw [hbytes]
  refine congrArg _ (List.ext_getElem? fun i => ?_)
  by_cases hi : i < len
  · obtain ⟨q, hq, hget⟩ := hholds i (hcount ▸ hi)
    rw [htranslate i hi] at hq
    rw [hget, List.getElem?_take_of_lt hi, List.getElem?_drop, h.byte hown (by omega) hq]
  · have hshort : ((data.drop first).take len).length ≤ i := by
      rw [List.length_take]
      omega
    rw [List.getElem?_eq_none (by omega), List.getElem?_eq_none hshort]

end

/-- A copy from a process succeeds exactly when its length is at most `MAX_TRANSFER` and every byte
of the range is translated; it returns the bytes of memory there. Where no page of the range is
mapped to a table through which the range is translated, a copy to a process that succeeds leaves in
the translated addresses what was copied to them last, and changes no other byte. If the pages of
the range are mapped to different frames, then every byte is where it belongs, and parts of at most
`MAX_TRANSFER` bytes are read back. -/
theorem copies (s : Paged) (uva : ℕ) :
    (∀ len, ((∃ bytes, s.copyFromUser uva len = .ok bytes) ↔
        len ≤ MAX_TRANSFER ∧ ∀ i < len, (s.translate (uva + i)).isSome) ∧
      ∀ bytes, s.copyFromUser uva len = .ok bytes → bytes.length = len ∧
        ∀ i < len, ∃ pa, s.translate (uva + i) = some pa ∧ bytes[i]? = some (byteAt s.mem pa)) ∧
    ∀ (data : List UInt8) (s' : Paged), s.Apart uva data.length →
      s.copyToUser uva data = (.ok (), s') →
      (∀ i < data.length, ∃ pa, s.translate (uva + i) = some pa ∧
        ((∀ j, i < j → j < data.length → s.translate (uva + j) ≠ some pa) →
          data[i]? = some (byteAt s'.mem pa))) ∧
      (∀ pa, (∀ i < data.length, s.translate (uva + i) ≠ some pa) →
        byteAt s'.mem pa = byteAt s.mem pa) ∧
      (s.OwnFrames uva data.length →
        (∀ i < data.length, ∃ pa, s.translate (uva + i) = some pa ∧
          data[i]? = some (byteAt s'.mem pa)) ∧
        ∀ first len, first + len ≤ data.length → len ≤ MAX_TRANSFER →
          s'.copyFromUser (uva + first) len = .ok ((data.drop first).take len)) := by
  refine ⟨fun len => ?_, fun data s' hapart hcopy => ?_⟩
  · obtain ⟨hiff, hspec⟩ := copyFromUser_spec s uva len
    refine ⟨hiff, fun bytes hbytes => ?_⟩
    obtain ⟨hlen, hholds⟩ := hspec bytes hbytes
    exact ⟨hlen, fun i hi => hholds i (hlen ▸ hi)⟩
  · obtain ⟨hiff, hcopied⟩ := copyToUser_spec hapart
    rw [hcopy] at hiff hcopied
    have hall := hiff.mp rfl
    have h := hcopied rfl
    have hsome : ∀ i < data.length, ∃ pa, s.translate (uva + i) = some pa := fun i hi =>
      Option.isSome_iff_exists.mp (hall i hi)
    refine ⟨fun i hi => ?_, h.kept, fun hown => ⟨fun i hi => ?_, fun first len hfirst hlen => ?_⟩⟩
    · obtain ⟨pa, hpa⟩ := hsome i hi
      exact ⟨pa, hpa, h.last i hi pa hpa⟩
    · obtain ⟨pa, hpa⟩ := hsome i hi
      exact ⟨pa, hpa, h.byte hown hi hpa⟩
    · exact h.readBack hown hall hfirst hlen

/-! ## Spaces where a copy is not read back -/

/-- A memory with the tables of a space at 0x1000 to 0x4000, whose first two pages have these
descriptors. -/
def tables4 (first second : UInt64) : Words := fun frame i =>
  if frame = 0x1000 ∧ i = 0 then 0x2003
  else if frame = 0x2000 ∧ i = 0 then 0x3003
  else if frame = 0x3000 ∧ i = 0 then 0x4003
  else if frame = 0x4000 ∧ i = 0 then first
  else if frame = 0x4000 ∧ i = 1 then second
  else 0

/-- Both pages are mapped to one frame. -/
def twice : Paged := ⟨tables4 0x5003 0x5003, [], ⟨0x1000, []⟩, []⟩

/-- The page is mapped to its own table of level 3. -/
def onTable : Paged := ⟨tables4 0x4003 0, [], ⟨0x1000, []⟩, []⟩

theorem index_low {va level : ℕ} (hva : va < 8192) (hlevel : level < 3) : index va level = 0 := by
  refine Fin.ext ?_
  have hpow : (2 : ℕ) ^ 21 ≤ 2 ^ (39 - level * 9) := Nat.pow_le_pow_right (by omega) (by omega)
  rw [val_index, Nat.div_eq_of_lt (Nat.lt_of_lt_of_le (by omega) hpow)]
  rfl

theorem translate_twice {va : ℕ} (hva : va < 8192) :
    twice.translate va = some (0x5000 + va % PAGE_SIZE) ∧
      twice.translators va = [0x1000, 0x2000, 0x3000, 0x4000] := by
  have hsize : PAGE_SIZE = 4096 := rfl
  have h0 : index va 0 = 0 := index_low hva (by decide)
  have h1 : index va 1 = 0 := index_low hva (by decide)
  have h2 : index va 2 = 0 := index_low hva (by decide)
  have hleaf : twice.mem 0x4000 (index va 3) = 0x5003 := by
    have hcases : index va 3 = 0 ∨ index va 3 = 1 := by
      rw [Fin.ext_iff, Fin.ext_iff, val_index]
      show va / 2 ^ 12 % 512 = 0 ∨ va / 2 ^ 12 % 512 = 1
      omega
    rcases hcases with h | h <;>
    · rw [h]
      rfl
  have hwalk : walkFrom twice.mem va 3 0 twice.space.root = some 0x4000 := by
    simp only [walkFrom, h0, h1, h2]
    rfl
  refine ⟨?_, ?_⟩
  · rw [translate, hwalk]
    dsimp only
    rw [hleaf, if_neg (by decide), lor_offset (dvd_mask _)]
    rfl
  · simp only [translators, tablesFrom, h0, h1, h2]
    rfl

/-- Of a copy to a range that has one frame twice, the first byte is overwritten. Of a copy to a page
that is mapped to a page table, the range is not mapped any more. -/
theorem copies_overwrite :
    (∃ s', twice.copyToUser 0 (1 :: List.replicate 4096 0) = (.ok (), s') ∧
      twice.translate (0 + 0) = some 0x5000 ∧
      (1 :: List.replicate 4096 (0 : UInt8))[0]? ≠ some (byteAt s'.mem 0x5000)) ∧
    ∃ s', onTable.copyToUser 0 (List.replicate 8 0) = (.ok (), s') ∧ onTable.OwnFrames 0 8 ∧
      s'.copyFromUser 0 8 = .error "unmapped user address" := by
  refine ⟨?_, _, rfl, fun i hi j hj p q _ _ _ => ?_, rfl⟩
  · set data : List UInt8 := 1 :: List.replicate 4096 0 with hdata
    have hlen : data.length = 4097 := by rw [hdata, List.length_cons, List.length_replicate]
    have hlow : ∀ i < data.length, twice.translate (0 + i) = some (0x5000 + i % PAGE_SIZE) :=
      fun i hi => by
        rw [Nat.zero_add]
        exact (translate_twice (by omega)).1
    have hapart : twice.Apart 0 data.length := by
      intro i hi pa hpa j hj
      obtain rfl := Option.some.inj ((hlow i hi).symm.trans hpa)
      have hframe : pageAlignDown (0x5000 + i % PAGE_SIZE) = 0x5000 :=
        pageAlignDown_add (by decide) (Nat.mod_lt i PAGE_SIZE_pos)
      rw [hframe, Nat.zero_add, (translate_twice (by omega)).2]
      decide
    obtain ⟨hiff, hcopied⟩ := copyToUser_spec hapart
    have hok := hiff.mpr fun i hi => Option.isSome_of_eq_some (hlow i hi)
    have hcopy := hcopied hok
    generalize twice.copyToUser 0 data = r at hok hcopy
    obtain ⟨r, s'⟩ := r
    obtain rfl : r = .ok () := hok
    refine ⟨s', rfl, hlow 0 (by omega), ?_⟩
    -- byte 4096 comes last to the address of byte 0
    have hlast := hcopy.last 4096 (by omega) 0x5000 (hlow 4096 (by omega))
      fun j hij hj => absurd hj (by omega)
    have hzero : data[4096]? = some 0 := by
      rw [hdata, List.getElem?_cons_succ, List.getElem?_replicate_of_lt (by omega)]
    rw [← hlast, hzero, hdata, List.getElem?_cons_zero]
    decide
  · show (0 + i) / 4096 = (0 + j) / 4096
    omega

end Paged

end JungeyOs.Mm
