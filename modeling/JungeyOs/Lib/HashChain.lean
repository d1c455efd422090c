import Mathlib.Data.List.Basic
import Mathlib.Logic.Function.Basic

/-!
# Hash chains

A log of records in which every record names the digest of the one before it and
carries its own. A checker walks the log from the beginning and reports the first
record that does not follow.

Results:
* `firstBad_eq_none_iff`: nothing is reported exactly for a chain.
* `chain_append`, `chain_concat`: a record that follows the last one extends a chain.
* `firstBad_break`: the first record that does not follow is the one reported.
* `foldl_set_ne`: a digest computed byte by byte with injective steps tells apart
  two texts that differ in one place.
-/

namespace JungeyOs.HashChain

/-- What a record says of itself and of the one before it. -/
structure Format (ρ η : Type*) where
  isRecord : ρ → Bool
  prev : ρ → η
  digest : ρ → η → η
  stored : ρ → η

namespace Format

variable {ρ η : Type*} (F : Format ρ η)

/-- `r` follows a record with digest `h`. -/
def Follows (h : η) (r : ρ) : Prop := F.isRecord r = true ∧ F.prev r = h ∧ F.digest r h = F.stored r

/-- Every record follows the one before it, the first one `h`. -/
def Chain : η → List ρ → Prop
  | _, [] => True
  | h, r :: rs => F.Follows h r ∧ Chain (F.stored r) rs

/-- The digest that the next record has to name. -/
def last : η → List ρ → η
  | h, [] => h
  | _, r :: rs => last (F.stored r) rs

instance [DecidableEq η] (h : η) (r : ρ) : Decidable (F.Follows h r) := by
  unfold Follows
  infer_instance

/-- The place of the first record that does not follow the one before it. -/
def firstBad [DecidableEq η] : η → List ρ → Option ℕ
  | _, [] => none
  | h, r :: rs => if F.Follows h r then (firstBad (F.stored r) rs).map (· + 1) else some 0

variable {F} {h : η} {r : ρ} {rs rs' : List ρ}

theorem last_append (h : η) (rs rs' : List ρ) : F.last h (rs ++ rs') = F.last (F.last h rs) rs' := by
  induction rs generalizing h with
  | nil => rfl
  | cons r rs ih => exact ih (F.stored r)

theorem last_concat (h : η) (rs : List ρ) (r : ρ) : F.last h (rs ++ [r]) = F.stored r :=
  last_append h rs [r]

theorem last_eq_getLast (h : η) (rs : List ρ) :
    F.last h rs = (rs.getLast?.map F.stored).getD h := by
  rcases List.eq_nil_or_concat rs with rfl | ⟨rs, r, rfl⟩
  · rfl
  · rw [List.concat_eq_append, last_concat, List.getLast?_concat]
    rfl

theorem chain_append : F.Chain h (rs ++ rs') ↔ F.Chain h rs ∧ F.Chain (F.last h rs) rs' := by
  induction rs generalizing h with
  | nil => simp [Chain, last]
  | cons r rs ih => rw [List.cons_append, Chain, Chain, last, ih, and_assoc]

/-- A record that follows the last one extends a chain. -/
theorem chain_concat : F.Chain h (rs ++ [r]) ↔ F.Chain h rs ∧ F.Follows (F.last h rs) r := by
  rw [chain_append]
  simp [Chain]

theorem isRecord_of_chain (hc : F.Chain h rs) (hr : r ∈ rs) : F.isRecord r = true := by
  induction rs generalizing h with
  | nil => simp at hr
  | cons a rs ih =>
    rcases List.mem_cons.mp hr with rfl | hr
    · exact hc.1.1
    · exact ih hc.2 hr

variable [DecidableEq η]

/-- The checker reports nothing exactly for a chain. -/
theorem firstBad_eq_none_iff : F.firstBad h rs = none ↔ F.Chain h rs := by
  induction rs generalizing h with
  | nil => simp [firstBad, Chain]
  | cons r rs ih =>
    rw [firstBad, Chain]
    split_ifs with hr
    · rw [Option.map_eq_none_iff, ih]
      simp [hr]
    · simp [hr]

/-- The first record that does not follow is the one reported. -/
theorem firstBad_break (hc : F.Chain h rs) (hr : ¬F.Follows (F.last h rs) r) :
    F.firstBad h (rs ++ r :: rs') = some rs.length := by
  induction rs generalizing h with
  | nil => exact if_neg hr
  | cons a rs ih =>
    rw [List.cons_append, firstBad, if_pos hc.1, ih hc.2 hr]
    rfl

end Format

/-- Two texts that differ in one place have different digests, if no step of the
digest forgets what came before or what it reads. -/
theorem foldl_set_ne {σ β : Type*} {step : σ → β → σ} (hs : ∀ b, Function.Injective (step · b))
    (hb : ∀ s, Function.Injective (step s)) {l : List β} {i : ℕ} (hi : i < l.length) {b : β}
    (hne : l[i] ≠ b) (s : σ) : (l.set i b).foldl step s ≠ l.foldl step s := by
  have hfold : ∀ l : List β, Function.Injective fun s => l.foldl step s := by
    intro l
    induction l with
    | nil => exact fun _ _ heq => heq
    | cons a l ih => exact fun _ _ heq => hs a (ih heq)
  induction l generalizing i s with
  | nil => simp at hi
  | cons a l ih =>
    cases i with
    | zero => exact fun heq => hne (hb s (hfold l heq)).symm
    | succ i => exact ih (by simpa using hi) (by simpa using hne) (step s a)

end JungeyOs.HashChain
