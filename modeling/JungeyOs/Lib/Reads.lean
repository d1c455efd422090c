import Mathlib.Data.List.Basic

/-!
# Programs that read a buffer

A decoder reads a buffer by index. Each index is checked against the size of the buffer,
not against the length of the message in it, and so is the end of a slice; a check that
fails ends the program. A program is the tree of its reads.

Results:
* `mem_reads_and_isSome_iff`: a program reads the message only and gets to its end exactly
  when it is `Safe`, which the message alone decides.
* `run_of_safe`: what a safe program returns depends on the message alone.
* `safe_bind`, `safe_slice`: how programs are safe.
* `value_slice`, `At.byte`: what is read of a known part of the message.
* `Returns.run`: what all results satisfy, whatever is read.
-/

namespace JungeyOs

/-- A program over a buffer of `β` that returns an `α`. -/
inductive Reads (β α : Type) : Type
  | done (a : α)
  /-- the end of a slice, which must not be past the end of the buffer -/
  | bound (last : ℕ) (k : Reads β α)
  | read (i : ℕ) (k : β → Reads β α)

namespace Reads

variable {β α γ : Type}

def bind : Reads β α → (α → Reads β γ) → Reads β γ
  | .done a, f => f a
  | .bound last k, f => .bound last (k.bind f)
  | .read i k, f => .read i fun b => (k b).bind f

instance : Monad (Reads β) where
  pure := .done
  bind := bind

/-- `buf[i]`. -/
def byte (i : ℕ) : Reads β β := .read i .done

/-- The check that a slice ends within the buffer. -/
def upTo (last : ℕ) : Reads β Unit := .bound last (.done ())

/-- `len` elements from `i` on. -/
def slice (i : ℕ) : ℕ → Reads β (List β)
  | 0 => .done []
  | len + 1 => .read i fun b => (slice (i + 1) len).bind fun bs => .done (b :: bs)

/-- The indices that a program reads in `buf`, and its result; `none` if a check fails. -/
def run (buf : List β) : Reads β α → List ℕ × Option α
  | .done a => ([], some a)
  | .bound last k => if last ≤ buf.length then run buf k else ([], none)
  | .read i k =>
    match buf[i]? with
    | some b => (i :: (run buf (k b)).1, (run buf (k b)).2)
    | none => ([], none)

/-- The result in a memory of which every index can be read. -/
def eval (mem : ℕ → β) : Reads β α → α
  | .done a => a
  | .bound _ k => eval mem k
  | .read i k => eval mem (k (mem i))

@[simp]
theorem eval_pure (mem : ℕ → β) (a : α) : (pure a : Reads β α).eval mem = a := rfl

@[simp]
theorem eval_bind (mem : ℕ → β) (p : Reads β α) (f : α → Reads β γ) :
    (p >>= f).eval mem = (f (p.eval mem)).eval mem := by
  change (p.bind f).eval mem = _
  induction p with
  | done a => rfl
  | bound last k ih => exact ih
  | read i k ih => exact ih _

/-- In a memory that ends, a program fails or returns what it does in one that goes on. -/
theorem run_eq_eval {buf : List β} {mem : ℕ → β} (hmem : ∀ i b, buf[i]? = some b → mem i = b) (p : Reads β α) :
    (p.run buf).2 = none ∨ (p.run buf).2 = some (p.eval mem) := by
  induction p with
  | done a => exact Or.inr rfl
  | bound last k ih =>
    rw [run, eval]
    split_ifs
    · exact ih
    · exact Or.inl rfl
  | read i k ih =>
    rw [run, eval]
    cases hi : buf[i]? with
    | none => exact Or.inl rfl
    | some b =>
      rw [hmem i b hi]
      exact ih b

/-- Every result satisfies `Q`, whatever is read. -/
def Returns (Q : α → Prop) : Reads β α → Prop
  | .done a => Q a
  | .bound _ k => Returns Q k
  | .read _ k => ∀ b, Returns Q (k b)

theorem Returns.run {Q : α → Prop} {p : Reads β α} (h : p.Returns Q) {buf : List β} {a : α}
    (ha : (p.run buf).2 = some a) : Q a := by
  induction p with
  | done b =>
    obtain rfl := Option.some.inj ha
    exact h
  | bound last k ih =>
    rw [Reads.run] at ha
    by_cases hlast : last ≤ buf.length
    · rw [if_pos hlast] at ha
      exact ih h ha
    · rw [if_neg hlast] at ha
      cases ha
  | read i k ih =>
    rw [Reads.run] at ha
    cases hi : buf[i]? with
    | none =>
      rw [hi] at ha
      cases ha
    | some b =>
      rw [hi] at ha
      exact ih b (h b) ha

theorem Returns.eval {Q : α → Prop} {p : Reads β α} (h : p.Returns Q) (mem : ℕ → β) :
    Q (p.eval mem) := by
  induction p with
  | done a => exact h
  | bound last k ih => exact ih h
  | read i k ih => exact ih _ (h _)

theorem returns_pure {Q : α → Prop} {a : α} (h : Q a) : (pure a : Reads β α).Returns Q := h

theorem Returns.imp {R Q : α → Prop} {p : Reads β α} (hp : p.Returns R) (h : ∀ a, R a → Q a) :
    p.Returns Q := by
  induction p with
  | done a => exact h a hp
  | bound last k ih => exact ih hp
  | read i k ih => exact fun b => ih b (hp b)

theorem Returns.bind {R : α → Prop} {Q : γ → Prop} {p : Reads β α} {f : α → Reads β γ}
    (hp : p.Returns R) (h : ∀ a, R a → (f a).Returns Q) : (p >>= f).Returns Q := by
  change (p.bind f).Returns Q
  induction p with
  | done a => exact h a hp
  | bound last k ih => exact ih hp
  | read i k ih => exact fun b => ih b (hp b)

theorem returns_bind {Q : γ → Prop} (p : Reads β α) {f : α → Reads β γ}
    (h : ∀ a, (f a).Returns Q) : (p >>= f).Returns Q := by
  change (p.bind f).Returns Q
  induction p with
  | done a => exact h a
  | bound last k ih => exact ih
  | read i k ih => exact ih

theorem slice_returns (i len : ℕ) : (slice i len : Reads β (List β)).Returns (·.length = len) := by
  induction len generalizing i with
  | zero => exact returns_pure rfl
  | succ len ih =>
    intro b
    exact (ih (i + 1)).bind fun bs hbs => returns_pure (congrArg Nat.succ hbs)

/-! ## What a program returns -/

theorem run_bind (p : Reads β α) (f : α → Reads β γ) (buf : List β) :
    ((p >>= f).run buf).2 = (p.run buf).2.bind fun a => ((f a).run buf).2 := by
  change ((p.bind f).run buf).2 = _
  induction p with
  | done a => rfl
  | bound last k ih =>
    rw [Reads.bind, Reads.run, Reads.run]
    by_cases h : last ≤ buf.length
    · rw [if_pos h, if_pos h, ih]
    · rw [if_neg h, if_neg h]
      rfl
  | read i k ih =>
    rw [Reads.bind, Reads.run, Reads.run]
    cases hi : buf[i]? with
    | none => rfl
    | some b => exact ih b

theorem run_pure (a : α) (buf : List β) : ((pure a : Reads β α).run buf).2 = some a := rfl

theorem run_byte (i : ℕ) (buf : List β) : ((byte i : Reads β β).run buf).2 = buf[i]? := by
  rw [byte, Reads.run]
  cases buf[i]? <;> rfl

theorem run_upTo (last : ℕ) (buf : List β) :
    ((upTo last : Reads β Unit).run buf).2 = if last ≤ buf.length then some () else none := by
  rw [upTo, Reads.run]
  by_cases h : last ≤ buf.length
  · rw [if_pos h, if_pos h]
    rfl
  · rw [if_neg h, if_neg h]

/-- A slice within the buffer. -/
theorem run_slice {i len : ℕ} {buf : List β} (h : i + len ≤ buf.length) :
    ((slice i len : Reads β (List β)).run buf).2 = some ((buf.drop i).take len) := by
  induction len generalizing i with
  | zero => rfl
  | succ len ih =>
    have hi : i < buf.length := by omega
    have hbind := run_bind (slice (i + 1) len : Reads β (List β)) (fun bs => .done (buf[i] :: bs)) buf
    rw [slice, Reads.run, List.getElem?_eq_getElem hi]
    simp only
    rw [List.drop_eq_getElem_cons hi, List.take_succ_cons]
    rw [ih (by omega)] at hbind
    exact hbind

/-! ## What is where -/

section

variable {bytes l l' : List β} {i : ℕ}

/-- `l` is in the message, from `i` on. -/
def At (bytes : List β) (i : ℕ) (l : List β) : Prop := l <+: bytes.drop i

instance [DecidableEq β] (bytes : List β) (i : ℕ) (l : List β) : Decidable (At bytes i l) :=
  inferInstanceAs (Decidable (l <+: bytes.drop i))

theorem at_append : At bytes i (l ++ l') ↔ At bytes i l ∧ At bytes (i + l.length) l' := by
  unfold At
  constructor
  · rintro ⟨rest, h⟩
    refine ⟨⟨l' ++ rest, by rw [← h, List.append_assoc]⟩, rest, ?_⟩
    rw [← List.drop_drop, ← h, List.append_assoc, List.drop_left]
  · rintro ⟨⟨rest, h⟩, rest', h'⟩
    refine ⟨rest', ?_⟩
    rw [← List.drop_drop, ← h, List.drop_left] at h'
    rw [List.append_assoc, h', h]

theorem At.le (h : At bytes i l) (hne : l ≠ []) : i + l.length ≤ bytes.length := by
  have hlen := h.length_le
  have hpos := List.length_pos_iff.mpr hne
  rw [List.length_drop] at hlen
  omega

theorem At.tail {b : β} (h : At bytes i (b :: l)) : At bytes (i + 1) l :=
  (at_append.mp (show At bytes i ([b] ++ l) from h)).2

theorem At.length_le (h : At bytes i l) : l.length ≤ bytes.length := by
  have hlen := List.IsPrefix.length_le h
  rw [List.length_drop] at hlen
  omega

/-- What is in a part of the message. -/
theorem At.trans {j : ℕ} (h : At bytes i l) (h' : At l j l') : At bytes (i + j) l' := by
  obtain ⟨rest, h⟩ := h
  obtain ⟨rest', h'⟩ := h'
  refine ⟨rest' ++ rest.drop (j - l.length), ?_⟩
  rw [← List.drop_drop, ← h, List.drop_append, ← h', List.append_assoc]

theorem At.append (h : At bytes i l) (rest : List β) : At (bytes ++ rest) i l := by
  obtain ⟨more, h⟩ := h
  refine ⟨more ++ rest.drop (i - bytes.length), ?_⟩
  rw [List.drop_append, ← h, List.append_assoc]

theorem At.take (h : At bytes i l) : (bytes.drop i).take l.length = l :=
  (List.prefix_iff_eq_take.mp h).symm

end

variable [Inhabited β]

/-- On the message `bytes` in a buffer of `size`, the program reads the message only, and
no slice ends past the buffer. -/
def Safe (bytes : List β) (size : ℕ) : Reads β α → Prop
  | .done _ => True
  | .bound last k => last ≤ size ∧ Safe bytes size k
  | .read i k => i < bytes.length ∧ Safe bytes size (k (bytes.getD i default))

/-- The result on the message alone. -/
def value (bytes : List β) : Reads β α → α
  | .done a => a
  | .bound _ k => value bytes k
  | .read i k => value bytes (k (bytes.getD i default))

section

variable {bytes rest : List β}

theorem getElem?_of_lt {i : ℕ} (h : i < bytes.length) :
    (bytes ++ rest)[i]? = some (bytes.getD i default) := by
  rw [List.getElem?_append_left h, List.getD_eq_getElem?_getD, List.getElem?_eq_getElem h,
    Option.getD_some]

/-- A program reads the message only and gets to its end exactly when it is safe. -/
theorem mem_reads_and_isSome_iff (p : Reads β α) :
    ((∀ i ∈ (p.run (bytes ++ rest)).1, i < bytes.length) ∧ (p.run (bytes ++ rest)).2.isSome) ↔
      p.Safe bytes (bytes ++ rest).length := by
  induction p with
  | done a => simp [run, Safe]
  | bound last k ih =>
    rw [run, Safe]
    by_cases h : last ≤ (bytes ++ rest).length
    · rw [if_pos h, ih, and_iff_right h]
    · rw [if_neg h]
      exact iff_of_false (fun hs => by cases hs.2) fun hs => h hs.1
  | read i k ih =>
    rw [run, Safe]
    by_cases h : i < bytes.length
    · simp only [getElem?_of_lt h, List.forall_mem_cons, and_iff_right h]
      exact ih _
    · constructor
      · rintro ⟨hreads, hsome⟩
        cases hi : (bytes ++ rest)[i]? with
        | none =>
          rw [hi] at hsome
          cases hsome
        | some b =>
          rw [hi] at hreads
          exact absurd (hreads i List.mem_cons_self) h
      · intro hsafe
        exact absurd hsafe.1 h

/-- What a safe program returns depends on the message alone. -/
theorem run_of_safe {p : Reads β α} (h : p.Safe bytes (bytes ++ rest).length) :
    (p.run (bytes ++ rest)).2 = some (p.value bytes) := by
  induction p with
  | done a => rfl
  | bound last k ih =>
    rw [run, if_pos h.1]
    exact ih h.2
  | read i k ih =>
    rw [run, getElem?_of_lt h.1]
    exact ih _ h.2

end

section

variable {bytes : List β} {size : ℕ}

/-- What all results satisfy, the result on the message does. -/
theorem Returns.value {Q : α → Prop} {p : Reads β α} (h : p.Returns Q) : Q (p.value bytes) := by
  induction p with
  | done a => exact h
  | bound last k ih => exact ih h
  | read i k ih => exact ih _ (h _)

/-- The result on the message alone is that in a memory with nothing behind it. -/
theorem eval_getD (p : Reads β α) : p.eval (fun i => bytes.getD i default) = p.value bytes := by
  induction p with
  | done a => rfl
  | bound last k ih => exact ih
  | read i k ih => exact ih _

@[simp]
theorem safe_pure (a : α) : (pure a : Reads β α).Safe bytes size := trivial

@[simp]
theorem value_pure (a : α) : (pure a : Reads β α).value bytes = a := rfl

@[simp]
theorem safe_bind (p : Reads β α) (f : α → Reads β γ) :
    (p >>= f).Safe bytes size ↔ p.Safe bytes size ∧ (f (p.value bytes)).Safe bytes size := by
  change (p.bind f).Safe bytes size ↔ _
  induction p with
  | done a => simp [bind, Safe, value]
  | bound last k ih => simp [bind, Safe, value, ih, and_assoc]
  | read i k ih => simp [bind, Safe, value, ih, and_assoc]

@[simp]
theorem value_bind (p : Reads β α) (f : α → Reads β γ) :
    (p >>= f).value bytes = (f (p.value bytes)).value bytes := by
  change (p.bind f).value bytes = _
  induction p with
  | done a => rfl
  | bound last k ih => exact ih
  | read i k ih => exact ih _

@[simp]
theorem safe_byte (i : ℕ) : (byte i : Reads β β).Safe bytes size ↔ i < bytes.length := by
  simp [byte, Safe]

@[simp]
theorem value_byte (i : ℕ) : (byte i : Reads β β).value bytes = bytes.getD i default := rfl

theorem value_byte_of_lt {i : ℕ} (h : i < bytes.length) : (byte i : Reads β β).value bytes = bytes[i] := by
  rw [value_byte, List.getD_eq_getElem?_getD, List.getElem?_eq_getElem h, Option.getD_some]

@[simp]
theorem safe_upTo (last : ℕ) : (upTo last : Reads β Unit).Safe bytes size ↔ last ≤ size := by
  simp [upTo, Safe]

@[simp]
theorem value_upTo (last : ℕ) : (upTo last : Reads β Unit).value bytes = () := rfl

theorem safe_ite (c : Prop) [Decidable c] (p q : Reads β α) :
    (if c then p else q).Safe bytes size ↔
      (c → p.Safe bytes size) ∧ (¬c → q.Safe bytes size) := by
  by_cases h : c <;> simp [h]

@[simp]
theorem safe_slice (i len : ℕ) :
    (slice i len : Reads β (List β)).Safe bytes size ↔ len = 0 ∨ i + len ≤ bytes.length := by
  induction len generalizing i with
  | zero => simp [slice, Safe]
  | succ len ih =>
    have hbind : ∀ b : β, ((slice (i + 1) len).bind fun bs => .done (b :: bs) :
        Reads β (List β)).Safe bytes size ↔ (slice (i + 1) len : Reads β (List β)).Safe bytes size := by
      intro b
      exact (safe_bind _ fun bs => .done (b :: bs)).trans (and_iff_left trivial)
    rw [slice, Safe, hbind, ih]
    omega

theorem value_slice {i len : ℕ} (h : i + len ≤ bytes.length) :
    (slice i len : Reads β (List β)).value bytes = (bytes.drop i).take len := by
  have hsafe : (slice i len : Reads β (List β)).Safe bytes (bytes ++ []).length :=
    (safe_slice i len).mpr (Or.inr h)
  have hrun := run_of_safe hsafe
  rw [List.append_nil, run_slice h] at hrun
  exact (Option.some.inj hrun).symm

theorem value_ite (c : Prop) [Decidable c] (p q : Reads β α) :
    (if c then p else q).value bytes = if c then p.value bytes else q.value bytes := by
  by_cases h : c <;> simp [h]

end

section

variable {bytes l : List β} {i : ℕ}

theorem At.byte {b : β} (h : At bytes i (b :: l)) :
    i < bytes.length ∧ (byte i : Reads β β).value bytes = b := by
  have hle := h.le (List.cons_ne_nil b l)
  have hi : i < bytes.length := by
    rw [List.length_cons] at hle
    omega
  have htake := h.take
  rw [List.length_cons, List.drop_eq_getElem_cons hi, List.take_succ_cons] at htake
  exact ⟨hi, (value_byte_of_lt hi).trans (List.cons.inj htake).1⟩

end

end Reads

end JungeyOs
