import JungeyOs.Mm.PageMap

/-!
# Copies across the user boundary

Models of `kernel/src/mm/uaccess.rs`. A copy goes page by page: it translates the address of the next
byte through the page tables of the process, and copies up to the end of that page.

Results:
* `chunk_pos`, `chunk_fits`: an iteration copies something, and stays in its page.
* `copyFromUser_ok_iff`, `copyToUser_ok_iff`: a copy succeeds exactly when all its bytes are mapped.
-/

namespace JungeyOs.Mm

/-- `MAX_TRANSFER` (line 13). -/
def MAX_TRANSFER : ℕ := 4096

/-! ## Memory by address -/

namespace Memory

/-- The `n` bytes from `pa` on, which are in one frame. -/
def read (mem : Memory) (pa n : ℕ) : List UInt8 :=
  (Bytes.slice (mem (pageAlignDown pa)) (pa % PAGE_SIZE) n).toList

/-- Stores bytes from `pa` on, all of them to one frame. -/
def write (mem : Memory) (pa : ℕ) (bytes : List UInt8) : Memory :=
  Function.update mem (pageAlignDown pa)
    (Bytes.blit (mem (pageAlignDown pa)) (pa % PAGE_SIZE) ⟨bytes.toArray, List.size_toArray⟩)

end Memory

/-! ## The copies -/

/-- How much of a copy of `len` bytes to or from `uva` an iteration takes after `done` of them
(lines 24–25 and 38–39). -/
def chunk (uva len done : ℕ) : ℕ := min (PAGE_SIZE - (uva + done) % PAGE_SIZE) (len - done)

section

variable {τ : Type*}

/-- The loop of `copy_from_user` (lines 21–29). -/
def copyFromLoop (space : PageMap τ) (mem : Memory) (uva len : ℕ) :
    (fuel : ℕ) → (out : List UInt8) → Except String (List UInt8)
  | 0, out => .ok out
  | fuel + 1, out =>
    if out.length < len then
      match space.translate (uva + out.length) with
      | none => .error "unmapped user address"
      | some pa => copyFromLoop space mem uva len fuel (out ++ mem.read pa (chunk uva len out.length))
    else .ok out

/-- `copy_from_user` (lines 15–31). -/
def copyFromUser (space : PageMap τ) (mem : Memory) (uva len : ℕ) : Except String (List UInt8) :=
  if MAX_TRANSFER < len then .error "transfer too large"
  else copyFromLoop space mem uva len len []

/-- The loop of `copy_to_user` (lines 35–43). -/
def copyToLoop (space : PageMap τ) (uva : ℕ) (data : List UInt8) :
    (fuel done : ℕ) → Memory → Except String Unit × Memory
  | 0, _, mem => (.ok (), mem)
  | fuel + 1, done, mem =>
    if done < data.length then
      match space.translate (uva + done) with
      | none => (.error "unmapped user address", mem)
      | some pa =>
        let n := chunk uva data.length done
        copyToLoop space uva data fuel (done + n) (mem.write pa ((data.drop done).take n))
    else (.ok (), mem)

/-- `copy_to_user` (lines 33–45). -/
def copyToUser (space : PageMap τ) (uva : ℕ) (data : List UInt8) (mem : Memory) :
    Except String Unit × Memory :=
  copyToLoop space uva data data.length 0 mem

end

/-! ## One iteration -/

section

variable {mem : Memory} {uva len done pa n frame : ℕ} {bytes : List UInt8}

theorem chunk_pos (h : done < len) : 0 < chunk uva len done := by
  have hlt := Nat.mod_lt (uva + done) PAGE_SIZE_pos
  unfold chunk
  omega

theorem chunk_le : done + chunk uva len done ≤ max done len := by
  unfold chunk
  omega

/-- An iteration stays in its page. -/
theorem chunk_fits : (uva + done) % PAGE_SIZE + chunk uva len done ≤ PAGE_SIZE := by
  have hlt := Nat.mod_lt (uva + done) PAGE_SIZE_pos
  unfold chunk
  omega

end

/-! ## The copies that succeed -/

section

variable {τ : Type*} {space : PageMap τ} {uva : ℕ} {data : List UInt8}

/-- The bytes of an iteration are in one page. -/
theorem isSome_translate_chunk {len done i : ℕ} (hi : i < chunk uva len done) :
    (space.translate (uva + (done + i))).isSome = (space.translate (uva + done)).isSome := by
  have hfits : (uva + done) % PAGE_SIZE + chunk uva len done ≤ PAGE_SIZE := chunk_fits
  have hpage : (uva + (done + i)) / PAGE_SIZE = (uva + done) / PAGE_SIZE := by
    rw [← Nat.add_assoc]
    have hmod := Nat.div_add_mod (uva + done) PAGE_SIZE
    have hpos := PAGE_SIZE_pos
    refine Nat.div_eq_of_lt_le ?_ ?_
    · rw [Nat.mul_comm]
      omega
    · rw [Nat.add_mul, Nat.one_mul, Nat.mul_comm]
      omega
  unfold PageMap.translate pageOf
  rw [Option.isSome_map, Option.isSome_map, hpage]

/-- Where an iteration copies, what is left to be mapped comes after it. -/
theorem mapped_chunk {len done pa : ℕ} (hpa : space.translate (uva + done) = some pa) :
    (∀ i, done + chunk uva len done ≤ i → i < len → (space.translate (uva + i)).isSome) ↔
      ∀ i, done ≤ i → i < len → (space.translate (uva + i)).isSome := by
  constructor
  · intro h i hle hlt
    by_cases hi : i < done + chunk uva len done
    · obtain ⟨k, rfl⟩ := Nat.exists_eq_add_of_le hle
      have hk : k < chunk uva len done := by omega
      rw [isSome_translate_chunk hk, hpa]
      rfl
    · exact h i (by omega) hlt
  · exact fun h i hle hlt => h i (by omega) hlt

theorem copyToLoop_ok_iff (fuel : ℕ) : ∀ {done : ℕ} {mem : Memory}, data.length ≤ done + fuel →
    ((copyToLoop space uva data fuel done mem).1 = .ok () ↔
      ∀ i, done ≤ i → i < data.length → (space.translate (uva + i)).isSome) := by
  induction fuel with
  | zero =>
    intro done mem hfuel
    exact iff_of_true rfl fun i hle hlt => by omega
  | succ fuel ih =>
    intro done mem hfuel
    unfold copyToLoop
    by_cases hdone : done < data.length
    · rw [if_pos hdone]
      cases hpa : space.translate (uva + done) with
      | none =>
        refine iff_of_false nofun fun h => ?_
        have hsome := h done le_rfl hdone
        rw [hpa] at hsome
        cases hsome
      | some pa =>
        have hpos : 0 < chunk uva data.length done := chunk_pos hdone
        dsimp only
        rw [ih (by omega)]
        exact mapped_chunk hpa
    · rw [if_neg hdone]
      exact iff_of_true rfl fun i hle hlt => absurd (hle.trans_lt hlt) hdone

theorem copyToUser_ok_iff {mem : Memory} : (copyToUser space uva data mem).1 = .ok () ↔
    ∀ i < data.length, (space.translate (uva + i)).isSome := by
  rw [copyToUser, copyToLoop_ok_iff data.length (by omega)]
  exact ⟨fun h i hlt => h i (Nat.zero_le i) hlt, fun h i _ hlt => h i hlt⟩

theorem copyFromLoop_ok_iff {mem : Memory} {len : ℕ} (fuel : ℕ) : ∀ {out : List UInt8},
    len ≤ out.length + fuel → ((∃ bytes, copyFromLoop space mem uva len fuel out = .ok bytes) ↔
      ∀ i, out.length ≤ i → i < len → (space.translate (uva + i)).isSome) := by
  induction fuel with
  | zero =>
    intro out hfuel
    exact iff_of_true ⟨out, rfl⟩ fun i hle hlt => by omega
  | succ fuel ih =>
    intro out hfuel
    unfold copyFromLoop
    by_cases hdone : out.length < len
    · rw [if_pos hdone]
      cases hpa : space.translate (uva + out.length) with
      | none =>
        refine iff_of_false nofun fun h => ?_
        have hsome := h out.length le_rfl hdone
        rw [hpa] at hsome
        cases hsome
      | some pa =>
        have hpos : 0 < chunk uva len out.length := chunk_pos hdone
        have hread : (out ++ mem.read pa (chunk uva len out.length)).length =
            out.length + chunk uva len out.length := by
          simp [Memory.read]
        dsimp only
        rw [ih (by omega), hread]
        exact mapped_chunk hpa
    · rw [if_neg hdone]
      exact iff_of_true ⟨out, rfl⟩ fun i hle hlt => absurd (hle.trans_lt hlt) hdone

theorem copyFromUser_ok_iff {mem : Memory} {len : ℕ} :
    (∃ bytes, copyFromUser space mem uva len = .ok bytes) ↔
      len ≤ MAX_TRANSFER ∧ ∀ i < len, (space.translate (uva + i)).isSome := by
  unfold copyFromUser
  by_cases hlong : MAX_TRANSFER < len
  · rw [if_pos hlong]
    exact iff_of_false nofun fun h => absurd h.1 (by omega)
  · rw [if_neg hlong, copyFromLoop_ok_iff len (by simp)]
    exact ⟨fun h => ⟨by omega, fun i hlt => h i (Nat.zero_le i) hlt⟩, fun h i _ hlt => h.2 i hlt⟩

end

end JungeyOs.Mm
