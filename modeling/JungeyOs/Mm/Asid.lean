import JungeyOs.Lib.Run
import Mathlib.Data.List.Nodup
import Mathlib.Data.UInt

/-!
# Address space identifiers

Models of `NEXT_ASID`, `AddressSpace::new` and its drop (`kernel/src/mm/paging.rs`, lines 78–109 and
206–212) and of their use in `proc::create` (`kernel/src/proc.rs`, lines 75–97). The counter has 64
bits and the tag of a TLB entry 16, and no record is kept of the tags in use.

Results:
* `asid_eq_iff`: two spaces share a tag when a multiple of 65536 spaces lies between them.
* `distinct_step_iff`: exactly when a step keeps the tags of the live spaces apart.
* `asids_distinct_iff`: the runs in which the tags stay apart.
* `asid_comes_back`: a run in which they do not.
-/

namespace JungeyOs.Mm.Asid

/-- The part of `AddressSpace` (lines 81–86) that selects a space. `number` is what the space took
from `NEXT_ASID`; the source keeps only its low bits. -/
structure Space where
  root : ℕ
  asid : UInt64
  number : UInt64

/-- `NEXT_ASID`, and the spaces that have not been dropped, the newest first. -/
structure Sys where
  next : UInt64
  live : List Space

/-- `NEXT_ASID` before the first space (line 79). -/
def boot : Sys := ⟨1, []⟩

/-- `AddressSpace::new` (lines 89–96). `root` is what `alloc_table` returns. -/
def Sys.new (s : Sys) (root : Option ℕ) : Sys :=
  match root with
  | none => s
  | some root => ⟨s.next + 1, ⟨root, s.next &&& 0xffff, s.next⟩ :: s.live⟩

/-- `drop` takes the space at a position of the list. -/
inductive Act
  | new (root : Option ℕ)
  | drop (i : ℕ)

def step (s : Sys) : Act → Option Sys
  | .new root => some (s.new root)
  | .drop i => if i < s.live.length then some { s with live := s.live.eraseIdx i } else none

/-- What `proc::create` (lines 75–97) does with spaces. The table of processes keeps the new one,
unless `elf::load` or the mapping of the stack fails. -/
def create (root : Option ℕ) (loads : Bool) : List Act :=
  match root with
  | none => [.new none]
  | some root => .new (some root) :: if loads then [] else [.drop 0]

/-- The live spaces have different ASIDs, and none has the one of the kernel's empty space. -/
structure Distinct (s : Sys) : Prop where
  apart : (s.live.map Space.asid).Nodup
  reserved : ∀ x ∈ s.live, x.asid ≠ 0

/-- A new space does not come a multiple of 65536 spaces after the start of the counter, nor after a
space that is still alive. -/
def Unused (s : Sys) : Act → Prop
  | .new (some _) => s.next % 65536 ≠ 0 ∧ ∀ x ∈ s.live, (s.next - x.number) % 65536 ≠ 0
  | _ => True

/-! ## Tags -/

theorem asid_eq_mod (n : UInt64) : n &&& 0xffff = n % 65536 := by
  apply UInt64.toNat_inj.mp
  rw [UInt64.toNat_and, UInt64.toNat_mod]
  exact Nat.and_two_pow_sub_one_eq_mod n.toNat 16

/-- Two spaces share a tag when a multiple of 65536 spaces lies between them. -/
theorem asid_eq_iff (n m : UInt64) : n &&& 0xffff = m &&& 0xffff ↔ (n - m) % 65536 = 0 := by
  have h65536 : (65536 : UInt64).toNat = 65536 := rfl
  have hzero : (0 : UInt64).toNat = 0 := rfl
  have hn := n.toNat_lt
  have hm := m.toNat_lt
  rw [asid_eq_mod, asid_eq_mod, ← UInt64.toNat_inj, ← UInt64.toNat_inj, UInt64.toNat_mod,
    UInt64.toNat_mod, UInt64.toNat_mod, UInt64.toNat_sub, h65536, hzero]
  omega

/-! ## Runs -/

/-- The tags are the low bits of the numbers. -/
def Inv (s : Sys) : Prop := ∀ x ∈ s.live, x.asid = x.number &&& 0xffff

section

variable {s s' : Sys} {a : Act}

theorem inv_boot : Inv boot := by
  intro x hx
  cases hx

/-- What a step does to the live spaces: one more, or some of them. -/
theorem step_cases (hs : step s a = some s') :
    (∃ root, a = .new (some root) ∧ s' = ⟨s.next + 1, ⟨root, s.next &&& 0xffff, s.next⟩ :: s.live⟩) ∨
    ((∀ root, a ≠ .new (some root)) ∧ s'.live.Sublist s.live) := by
  cases a with
  | new root =>
    cases hs
    cases root with
    | none => exact .inr ⟨by simp, List.Sublist.refl _⟩
    | some root => exact .inl ⟨root, rfl, rfl⟩
  | drop i =>
    simp only [step] at hs
    split_ifs at hs
    cases hs
    exact .inr ⟨by simp, List.eraseIdx_sublist _ _⟩

theorem inv_step (hi : Inv s) (hs : step s a = some s') : Inv s' := by
  obtain ⟨root, -, rfl⟩ | ⟨-, hsub⟩ := step_cases hs
  · intro x hx
    obtain rfl | hx := List.mem_cons.mp hx
    · rfl
    · exact hi x hx
  · intro x hx
    exact hi x (hsub.subset hx)

/-- A step keeps the tags of the live spaces apart exactly when it takes one that is not in use. -/
theorem distinct_step_iff (hi : Inv s) (hd : Distinct s) (hs : step s a = some s') :
    Distinct s' ↔ Unused s a := by
  obtain ⟨root, rfl, rfl⟩ | ⟨hnew, hsub⟩ := step_cases hs
  · have hfresh : s.next &&& 0xffff ∉ s.live.map Space.asid ↔
        ∀ x ∈ s.live, (s.next - x.number) % 65536 ≠ 0 := by
      rw [List.mem_map, not_exists]
      refine forall_congr' fun x => ?_
      rw [not_and]
      refine imp_congr_right fun hx => not_congr ?_
      rw [hi x hx, eq_comm, asid_eq_iff]
    constructor
    · intro h
      have hapart := h.apart
      rw [List.map_cons, List.nodup_cons] at hapart
      have hreserved := h.reserved _ List.mem_cons_self
      refine ⟨?_, hfresh.mp hapart.1⟩
      rwa [← asid_eq_mod]
    · rintro ⟨hzero, hlive⟩
      rw [← asid_eq_mod] at hzero
      refine ⟨List.nodup_cons.mpr ⟨hfresh.mpr hlive, hd.apart⟩, ?_⟩
      intro x hx
      obtain rfl | hx := List.mem_cons.mp hx
      · exact hzero
      · exact hd.reserved x hx
  · refine iff_of_true ⟨hd.apart.sublist (hsub.map _), fun x hx => hd.reserved x (hsub.subset hx)⟩ ?_
    cases a with
    | new root =>
      cases root with
      | none => trivial
      | some root => exact absurd rfl (hnew root)
    | drop i => trivial

end

/-- In a run the live spaces have different ASIDs, none of them 0, throughout exactly when every new
space takes a tag that is not in use. -/
theorem asids_distinct_iff (as : List Act) :
    Run.Throughout step Distinct boot as ↔ Run.Meets step Unused boot as := by
  have hboot : Distinct boot := ⟨List.nodup_nil, nofun⟩
  refine Run.throughout_iff_meets Inv (fun s a s' hi _ hs => inv_step hi hs)
    (fun s a s' hi hd hs => distinct_step_iff hi hd hs) (fun s a _ hs => ?_) inv_boot hboot as
  cases a with
  | new root => cases hs
  | drop i => trivial

/-! ## Around the counter -/

/-- Failed calls of `create` move the counter on. -/
theorem exec_failed (root n : ℕ) (s : Sys) :
    Run.exec step s ((List.replicate n (create (some root) false)).flatten) =
      some { s with next := s.next + UInt64.ofNat n } := by
  induction n generalizing s with
  | zero =>
    show some s = some ⟨s.next + 0, s.live⟩
    rw [UInt64.add_zero]
  | succ n ih =>
    have hone : Run.exec step s (create (some root) false) = some { s with next := s.next + 1 } := by
      show (step (s.new (some root)) (.drop 0)).bind _ = _
      simp [step, Sys.new]
    rw [List.replicate_succ, List.flatten_cons, Run.exec_append, hone, Option.bind_some, ih]
    have hnext : s.next + 1 + UInt64.ofNat n = s.next + UInt64.ofNat (n + 1) := by
      rw [UInt64.ofNat_add, UInt64.add_assoc, UInt64.add_comm 1]
      rfl
    rw [← hnext]

/-- A process, 65535 calls of `create` that fail, and a process with the tag of the first; the last
of the failed calls had the tag 0. -/
theorem asid_comes_back : ∃ s, Run.exec step boot (create (some 0x40000000) true ++
      (List.replicate 65535 (create (some 0x40001000) false)).flatten ++
      create (some 0x40001000) true) = some s ∧
    s.live.map Space.asid = [1, 1] ∧ ¬Distinct s := by
  refine ⟨⟨65538, [⟨0x40001000, 1, 65537⟩, ⟨0x40000000, 1, 1⟩]⟩, ?_, rfl, fun h => ?_⟩
  · have hfirst : Run.exec step boot (create (some 0x40000000) true) =
        some ⟨2, [⟨0x40000000, 1, 1⟩]⟩ := rfl
    rw [Run.exec_append, Run.exec_append, hfirst, Option.bind_some, exec_failed, Option.bind_some]
    rfl
  · exact absurd h.apart (by decide)

end JungeyOs.Mm.Asid
