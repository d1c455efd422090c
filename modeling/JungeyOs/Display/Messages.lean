import JungeyOs.Display.Server

/-!
# Messages in a shared buffer

All messages come into one buffer of 4096 bytes, and what an earlier message left after
the end of the present one stays there. The loop of `user/src/gpudrv.rs` checks that a
command begins within the message, and no more.

Results:
* `request_safe_iff`: a command is decoded from the message alone exactly when the message
  has the bytes that it uses (`Whole`).
* `sealed_iff`: so it is with a message and all commands that the loop comes to.
-/

namespace JungeyOs.Display

open Reads

/-- The first byte and the sender that lead to an arm. -/
def Arm.Of (sender : ℕ) (op : UInt8) : Arm → Prop
  | .clear => op = OP_CLEAR ∧ sender = KERNEL
  | .rect => op = OP_RECT ∧ sender = KERNEL
  | .text => op = OP_TEXT ∧ sender = KERNEL
  | .present => op = OP_PRESENT ∨ op = OP_COMPOSE
  | .input => op = OP_INPUT
  | .create => op = OP_WIN_CREATE
  | .raise => op = OP_WIN_RAISE
  | .move => op = OP_WIN_MOVE
  | .fill => op = OP_WIN_FILL
  | .label => op = OP_WIN_TEXT
  | .reset => op = OP_WIN_RESET
  | .client => op = OP_CLIENT ∧ sender = KERNEL
  | .stats => op = OP_STATS ∧ sender = KERNEL
  | .shutdown => op = OP_SHUTDOWN ∧ sender = KERNEL

theorem ite_eq_some {c : Prop} [Decidable c] {a b : Arm} {rest : Option Arm}
    (h : (if c then some a else rest) = some b) : c ∧ a = b ∨ rest = some b := by
  by_cases hc : c
  · rw [if_pos hc] at h
    exact Or.inl ⟨hc, Option.some.inj h⟩
  · rw [if_neg hc] at h
    exact Or.inr h

/-- What leads to an arm. -/
theorem arm_of {sender : ℕ} {op : UInt8} {a : Arm} (h : arm sender op = some a) :
    a.Of sender op := by
  rw [arm] at h
  iterate 14
    rcases ite_eq_some h with ⟨hc, rfl⟩ | h
    · exact hc
  cases h

/-- The arms that give a command. -/
def Request.Of (a : Arm) : Request → Prop
  | .clear _ => a = .clear
  | .draw _ _ => a = .rect ∨ a = .text
  | .present => a = .present
  | .input _ _ _ => a = .input
  | .create _ _ _ _ => a = .create
  | .raise _ => a = .raise
  | .move _ _ _ => a = .move
  | .push _ _ => a = .fill ∨ a = .label
  | .reset _ => a = .reset
  | .client _ => a = .client
  | .stats => a = .stats
  | .shutdown => a = .shutdown

namespace Server

/-- How many bytes of the command at `i` an arm uses. -/
def uses (s : Server) (sender : ℕ) (bytes : List UInt8) (i : ℕ) : Arm → ℕ
  | .clear => 5
  | .rect => if s.Keeps 13 then 13 else 9
  | .text =>
    let len := (bytes.getD (i + 10) 0).toNat
    11 + if s.Keeps (11 + len) then len else 0
  | .present => 1
  | .input => 6
  | .create =>
    let len := (bytes.getD (i + 14) 0).toNat
    15 + if s.Takes sender (bytes.getD (i + 1) 0) then min len MAX_TITLE else 0
  | .raise => 2
  | .move => 6
  | .fill => 14
  | .label => 12 + min (bytes.getD (i + 11) 0).toNat MAX_TEXT
  | .reset => 2
  | .client => if s.clients.val.length < MAX_CLIENTS then 5 else 1
  | .stats => 1
  | .shutdown => 1

/-- Where the longest slice of the command at `i` ends, used or not. -/
def spans (bytes : List UInt8) (i : ℕ) : Arm → ℕ
  | .clear => 5
  | .rect => 13
  | .text => 11 + (bytes.getD (i + 10) 0).toNat
  | .create => 15 + (bytes.getD (i + 14) 0).toNat
  | _ => 0

/-- The message has the bytes that the command at `i` uses, and the buffer those that it
spans. -/
def Whole (s : Server) (sender : ℕ) (bytes : List UInt8) (i : ℕ) : Prop :=
  ∀ a, arm sender (bytes.getD i 0) = some a →
    i + s.uses sender bytes i a ≤ bytes.length ∧ i + spans bytes i a ≤ BUFFER

section

variable {bytes : List UInt8} {size : ℕ} (i : ℕ)

theorem safe_be16At : (be16At i).Safe bytes size ↔ i + 2 ≤ bytes.length := by
  simp [be16At]

theorem safe_le32At : (le32At i).Safe bytes size ↔ i + 4 ≤ bytes.length := by
  simp [le32At]

theorem safe_rectAt : (rectAt i).Safe bytes size ↔ i + 8 ≤ bytes.length := by
  simp only [rectAt, safe_bind, safe_be16At, safe_pure, and_true]
  omega

theorem safe_retained (s : Server) (len : ℕ) :
    (s.retained i len).Safe bytes size ↔
      i + len ≤ size ∧ (s.Keeps len → len = 0 ∨ i + len ≤ bytes.length) := by
  simp [retained, safe_ite]

end

/-- An arm reads the message only exactly when the message has what it uses. -/
theorem parse_safe_iff (s : Server) (sender : ℕ) {bytes : List UInt8} (hn : bytes.length ≤ BUFFER)
    {i : ℕ} (hi : i < bytes.length) (a : Arm) :
    (s.parse sender i a).Safe bytes BUFFER ↔
      i + s.uses sender bytes i a ≤ bytes.length ∧ i + spans bytes i a ≤ BUFFER := by
  have hdefault : (default : UInt8) = 0 := rfl
  cases a <;> simp only [parse, safe_bind, safe_ite, safe_upTo, safe_slice, safe_byte, safe_pure,
    safe_be16At, safe_le32At, safe_rectAt, safe_retained, and_true] <;>
    simp only [value_byte, hdefault, uses, spans, true_iff]
  case rect =>
    by_cases h : s.Keeps 13 <;> simp only [h, if_true, if_false] <;> grind
  case text =>
    by_cases h : s.Keeps (11 + (bytes.getD (i + 10) 0).toNat) <;>
      simp only [h, if_true, if_false] <;> grind
  case create =>
    by_cases h : s.Takes sender (bytes.getD (i + 1) 0) <;> simp only [h, if_true, if_false] <;> grind
  case client =>
    by_cases h : s.clients.val.length < MAX_CLIENTS <;> simp only [h, if_true, if_false] <;> grind
  all_goals omega

theorem request_safe_iff (s : Server) (sender : ℕ) {bytes : List UInt8}
    (hn : bytes.length ≤ BUFFER) {i : ℕ} (hi : i < bytes.length) :
    (s.request sender i).Safe bytes BUFFER ↔ s.Whole sender bytes i := by
  have hdefault : (default : UInt8) = 0 := rfl
  rw [request, safe_bind, safe_byte, value_byte, hdefault, and_iff_right hi, Whole]
  cases ha : arm sender (bytes.getD i 0) with
  | none => simp
  | some a =>
    have hparse := parse_safe_iff s sender hn hi a
    simp only [safe_bind, safe_pure, and_true, hparse, Option.some.injEq, forall_eq']

section

variable {env : Env} {sender : ℕ} {bytes rest : List UInt8} {s s' : Server} {i j fuel : ℕ}

/-- A command that is whole leads the same way whatever follows the message. -/
theorem run_of_whole (hsize : (bytes ++ rest).length = BUFFER) (hi : i < bytes.length)
    (h : s.Whole sender bytes i) :
    (∀ k ∈ ((s.request sender i).run (bytes ++ rest)).1, k < bytes.length) ∧
      ((s.request sender i).run (bytes ++ rest)).2 = some ((s.request sender i).value bytes) := by
  have hn : bytes.length ≤ BUFFER := by
    rw [← hsize, List.length_append]
    omega
  have hsafe : (s.request sender i).Safe bytes (bytes ++ rest).length := by
    rw [hsize]
    exact (request_safe_iff s sender hn hi).mpr h
  exact ⟨((mem_reads_and_isSome_iff _).mpr hsafe).1, run_of_safe hsafe⟩

/-- A loop that comes to whole commands only. -/
theorem decode_of_whole (hsize : (bytes ++ rest).length = BUFFER)
    (h : ∀ s' j, Relation.ReflTransGen (Leads env sender bytes.length (bytes ++ rest)) (s, i) (s', j) →
      j < bytes.length → s'.Whole sender bytes j)
    (hfuel : bytes.length ≤ i + fuel) :
    (∀ k ∈ (decode env sender bytes.length (bytes ++ rest) (fuel + 1) s i).1, k < bytes.length) ∧
      (decode env sender bytes.length (bytes ++ rest) (fuel + 1) s i).2.2 ≠ .panicked ∧
      (decode env sender bytes.length (bytes ++ rest) (fuel + 1) s i).2.2 ≠ .spent ∧
      ∀ rest', (bytes ++ rest').length = BUFFER →
        (decode env sender bytes.length (bytes ++ rest') (fuel + 1) s i).2 =
          (decode env sender bytes.length (bytes ++ rest) (fuel + 1) s i).2 := by
  induction fuel generalizing s i with
  | zero =>
    have hi : bytes.length ≤ i := hfuel
    simp [decode_of_le hi]
  | succ fuel ih =>
    by_cases hi : bytes.length ≤ i
    · simp [decode_of_le hi]
    · have hlt := Nat.not_le.mp hi
      have hwhole := h s i .refl hlt
      obtain ⟨hreads, hrun⟩ := run_of_whole hsize hlt hwhole
      have hrun' : ∀ rest', (bytes ++ rest').length = BUFFER →
          ((s.request sender i).run (bytes ++ rest')).2 =
            ((s.request sender i).run (bytes ++ rest)).2 := by
        intro rest' hsize'
        rw [(run_of_whole hsize' hlt hwhole).2, hrun]
      cases hturn : s.turn env sender i ((s.request sender i).run (bytes ++ rest)).2 with
      | stop how =>
        have hhow : how ≠ .panicked ∧ how ≠ .spent := by
          rw [hrun] at hturn
          cases hv : (s.request sender i).value bytes with
          | none =>
            rw [hv] at hturn
            cases hturn
            simp
          | some r =>
            obtain ⟨req, len⟩ := r
            rw [hv] at hturn
            cases req <;> cases hturn
            simp
        rw [decode_of_stop hlt hturn]
        refine ⟨hreads, hhow.1, hhow.2, fun rest' hsize' => ?_⟩
        rw [decode_of_stop hlt (by rw [hrun' rest' hsize', hturn])]
      | next s' j =>
        have hleads : Leads env sender bytes.length (bytes ++ rest) (s, i) (s', j) := ⟨hlt, hturn⟩
        have hadv : i < j := hleads.advances
        obtain ⟨hreads', hpanic, hspent, hsame⟩ := ih (s := s') (i := j)
          (fun t k hcomes hk => h t k (.head hleads hcomes) hk) (by omega)
        rw [decode_of_leads hleads]
        refine ⟨?_, hpanic, hspent, fun rest' hsize' => ?_⟩
        · intro k hk
          exact (List.mem_append.mp hk).elim (hreads k) (hreads' k)
        · have hleads' : Leads env sender bytes.length (bytes ++ rest') (s, i) (s', j) :=
            ⟨hlt, by rw [hrun' rest' hsize', hturn]⟩
          rw [decode_of_leads hleads']
          exact hsame rest' hsize'

/-- A loop that reads the message only and fails no check comes to whole commands only. -/
theorem whole_of_decode (hsize : (bytes ++ rest).length = BUFFER) {a b : Server × ℕ}
    (hcomes : Relation.ReflTransGen (Leads env sender bytes.length (bytes ++ rest)) a b)
    (hb : b.2 < bytes.length) (hfuel : bytes.length ≤ a.2 + fuel)
    (hreads : ∀ k ∈ (decode env sender bytes.length (bytes ++ rest) (fuel + 1) a.1 a.2).1,
      k < bytes.length)
    (hpanic : (decode env sender bytes.length (bytes ++ rest) (fuel + 1) a.1 a.2).2.2 ≠ .panicked) :
    b.1.Whole sender bytes b.2 := by
  have hn : bytes.length ≤ BUFFER := by
    rw [← hsize, List.length_append]
    omega
  induction hcomes using Relation.ReflTransGen.head_induction_on generalizing fuel with
  | refl =>
    rw [← request_safe_iff b.1 sender hn hb, ← hsize, ← mem_reads_and_isSome_iff]
    cases hturn : b.1.turn env sender b.2 ((b.1.request sender b.2).run (bytes ++ rest)).2 with
    | stop how =>
      rw [decode_of_stop hb hturn] at hreads hpanic
      refine ⟨hreads, ?_⟩
      cases hrun : ((b.1.request sender b.2).run (bytes ++ rest)).2 with
      | none =>
        rw [hrun] at hturn
        cases hturn
        exact absurd rfl hpanic
      | some r => rfl
    | next s' j =>
      have hleads : Leads env sender bytes.length (bytes ++ rest) (b.1, b.2) (s', j) :=
        ⟨hb, hturn⟩
      rw [decode_of_leads hleads] at hreads
      obtain ⟨req, len, hrun, -⟩ := turn_eq_next.mp hturn
      exact ⟨fun k hk => hreads k (List.mem_append_left _ hk), by rw [hrun]; rfl⟩
  | @head a c hleads _ ih =>
    have hadv := hleads.advances
    have ha := hleads.1
    obtain ⟨fuel, rfl⟩ : ∃ f, fuel = f + 1 := ⟨fuel - 1, by omega⟩
    rw [decode_of_leads hleads] at hreads hpanic
    have hfuel' : bytes.length ≤ c.2 + fuel := by omega
    exact ih hfuel' (fun k hk => hreads k (List.mem_append_right _ hk)) hpanic

end

/-! ## What is decoded -/

theorem parse_of (s : Server) (sender i : ℕ) (a : Arm) :
    (s.parse sender i a).Returns fun r => r.1.Of a := by
  cases a <;> simp only [parse] <;> repeat' first
    | apply returns_bind; intro _
    | exact returns_pure rfl
    | exact returns_pure (Or.inl rfl)
    | exact returns_pure (Or.inr rfl)
    | split

/-- How a command comes to be decoded. -/
theorem request_eq_some {s : Server} {sender i len : ℕ} {buf : List UInt8} {req : Request}
    (h : ((s.request sender i).run buf).2 = some (some (req, len))) :
    ∃ op a, buf[i]? = some op ∧ arm sender op = some a ∧ req.Of a ∧
      ((s.parse sender i a).run buf).2 = some (req, len) := by
  rw [request, run_bind, run_byte] at h
  obtain ⟨op, hop, h⟩ := Option.bind_eq_some_iff.mp h
  cases ha : arm sender op with
  | none =>
    rw [ha] at h
    cases h
  | some a =>
    rw [ha, run_bind] at h
    obtain ⟨r, hparse, hr⟩ := Option.bind_eq_some_iff.mp h
    have hreq : r = (req, len) := Option.some.inj (Option.some.inj hr)
    subst hreq
    exact ⟨op, a, hop, ha, (parse_of s sender i a).run hparse, hparse⟩

/-- The other way round. -/
theorem request_of_parse {s : Server} {sender i : ℕ} {buf : List UInt8} {op : UInt8} {a : Arm}
    (hop : buf[i]? = some op) (ha : arm sender op = some a) :
    ((s.request sender i).run buf).2 = ((s.parse sender i a).run buf).2.map some := by
  rw [request, run_bind, run_byte, hop, Option.bind_some, ha]
  simp only
  rw [run_bind]
  cases ((s.parse sender i a).run buf).2 <;> rfl

section

variable {buf : List UInt8} {i : ℕ}

theorem be16_take (b : List UInt8) {k : ℕ} (hk : 2 ≤ k) : be16 (b.take k) = be16 b := by
  obtain ⟨k, rfl⟩ := Nat.exists_eq_add_of_le' hk
  cases b with
  | nil => rfl
  | cons x b =>
    cases b with
    | nil => rfl
    | cons y b => rfl

theorem run_be16At (h : i + 2 ≤ buf.length) :
    ((be16At i).run buf).2 = some (be16 (buf.drop i)) := by
  rw [be16At, run_bind, run_slice h, Option.bind_some, run_pure, be16_take _ le_rfl]

theorem run_rectAt (h : i + 8 ≤ buf.length) :
    ((rectAt i).run buf).2 =
      some { x := be16 (buf.drop i), y := be16 (buf.drop (i + 2)), w := be16 (buf.drop (i + 4)),
             h := be16 (buf.drop (i + 6)) } := by
  rw [rectAt, run_bind, run_be16At (by omega), Option.bind_some, run_bind, run_be16At (by omega),
    Option.bind_some, run_bind, run_be16At (by omega), Option.bind_some, run_bind,
    run_be16At (by omega), Option.bind_some, run_pure]

end

/-! ## What comes of a message -/

variable (env : Env) (sender : ℕ) (s : Server) (bytes : UpTo BUFFER UInt8)

/-- The server handles the message by its bytes alone, whatever the buffer held: it reads
those only, it gets to the end without a failed check, and what comes of the message does
not depend on the rest. -/
structure Sealed : Prop where
  reads : ∀ old, ∀ k ∈ (serve env sender s bytes old).1, k < bytes.val.length
  checks : ∀ old, (serve env sender s bytes old).2.stop ≠ .panicked
  ends : ∀ old, (serve env sender s bytes old).2.stop ≠ .spent
  same : ∀ old old', (serve env sender s bytes old').2 = (serve env sender s bytes old).2

variable {env sender s bytes}

theorem length_received (old : Vector UInt8 BUFFER) : (received old bytes).length = BUFFER := by
  have hle := bytes.property
  simp only [received, List.length_append, List.length_drop, Vector.length_toList]
  omega

/-- The server handles a message by its bytes alone exactly when the message has the bytes
of every command that the loop comes to, whatever the buffer held. -/
theorem sealed_iff :
    Sealed env sender s bytes ↔
      ∀ (old : Vector UInt8 BUFFER) (s' : Server) (i : ℕ),
        Comes env sender bytes.val.length (received old bytes) s s' i → i < bytes.val.length →
          s'.Whole sender bytes.val i := by
  constructor
  · intro h old s' i hcomes hi
    have hpos : ¬bytes.val.length = 0 := by omega
    have hreads := h.reads old
    have hpanic := h.checks old
    rw [serve, if_neg hpos] at hreads hpanic
    exact whole_of_decode (length_received old) hcomes hi (Nat.le_add_left _ _) hreads hpanic
  · intro h
    by_cases hpos : bytes.val.length = 0
    · constructor <;> simp [serve, hpos]
    · have hdecode := fun old => decode_of_whole (length_received old)
        (fun s' j => h old s' j) (show bytes.val.length ≤ 0 + bytes.val.length from
          Nat.le_add_left _ _)
      constructor
      · intro old
        rw [serve, if_neg hpos]
        exact (hdecode old).1
      · intro old
        rw [serve, if_neg hpos]
        exact (hdecode old).2.1
      · intro old
        rw [serve, if_neg hpos]
        exact (hdecode old).2.2.1
      · intro old old'
        have hsame := (hdecode old).2.2.2 _ (length_received old')
        rw [serve, serve, if_neg hpos, if_neg hpos]
        exact congrArg (conclude sender) hsame

/-- A device and channels that take everything. -/
def responsive : Env where
  device _ := true
  accepts _ := true

/-- A window, and a label of 40 bytes whose message ends before them. -/
def cutLabel : UpTo BUFFER UInt8 :=
  UpTo.take BUFFER
    [OP_WIN_CREATE, 1, 0, 10, 0, 10, 0, 100, 0, 100, 0, 0, 0, 255, 0,
      OP_WIN_TEXT, 1, 0, 0, 0, 0, 255, 255, 255, 255, 1, 40]

/-- What another client's message left in the buffer comes into the window. -/
theorem cutLabel_leaks : ¬Sealed responsive 7 (start responsive fun _ => 0) cutLabel := by
  intro h
  have hsame := congrArg (fun served => (served.server.wm.windows ⟨0, by decide⟩).cmds)
    (h.same (Vector.replicate BUFFER 0) (Vector.replicate BUFFER 65))
  exact absurd hsame (by set_option maxRecDepth 20000 in decide)

end Server

end JungeyOs.Display
