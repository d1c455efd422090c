import JungeyOs.Mm.Uaccess
import JungeyOs.Receive

/-!
# What a receive leaves behind

`sys_recv` (`kernel/src/syscall.rs`, lines 141–184) with its copies to the caller. It takes a message
from the queue, copies the body, and copies the sender if it was asked to; a copy fails at a page
that is not mapped. Each time that it blocks, others change what they like before it goes on. A
process that has capabilities has an address space.

Results:
* `deliver_neg_iff`: a message that has been taken is delivered exactly when what is copied is mapped.
* `intact_iff`: a call that fails leaves everything as it was exactly when the message that it finds,
  if any, can be copied.
* `message_lost`: a message is gone, and the call has failed.
-/

namespace JungeyOs.Delivery

open Ipc (Channels Message)
open Mm (Memory PAGE_SIZE PageMap)
open Sched (State)

/-- `EFAULT` (line 36). -/
def EFAULT : ℤ := -4

/-! ## The call -/

/-- The capability tables, the channels, the address space of the caller and the memory. -/
structure Shared (τ : Type*) where
  table : Proc.Table
  chans : Channels
  space : PageMap τ
  mem : Memory

/-- The arguments; `fromPtr` is zero for `SYS_RECV`. -/
structure Args where
  pid : ℕ
  slot : ℕ
  ptr : ℕ
  len : ℕ
  fromPtr : ℕ

variable {τ : Type*}

/-- What `sys_recv` does with a message that it has taken (lines 163–179). -/
def deliver (args : Args) (msg : Message) (space : PageMap τ) (mem : Memory) : ℤ × Memory :=
  let n := min msg.bytes.length args.len
  match Mm.copyToUser space args.ptr (msg.bytes.take n) mem with
  | (.error _, mem) => (EFAULT, mem)
  | (.ok (), mem) =>
    if args.fromPtr ≠ 0 then
      match Mm.copyToUser space args.fromPtr (Bytes.leList 8 msg.source) mem with
      | (.error _, mem) => (EFAULT, mem)
      | (.ok (), mem) => (n, mem)
    else (n, mem)

/-- The loop of `sys_recv` (lines 142–183): what it returns, what it leaves, and those of the changes of
others that are still to come. It returns nothing if it blocks, and nobody wakes it. -/
def sysRecv (args : Args) : (others : List (Shared τ → Shared τ)) → Shared τ → State →
    Option ℤ × Shared τ × List (Shared τ → Shared τ)
  | others, s, state =>
    match Receive.resolve s.table args.pid args.slot with
    | .error e => (some e, s, others)
    | .ok channel =>
      match Ipc.recvOrPrepare s.chans state channel channel with
      | (chans, _, some msg) =>
        let (result, mem) := deliver args msg s.space s.mem
        (some result, { s with chans := chans, mem := mem }, others)
      | (chans, state, none) =>
        match others with
        | [] => (none, { s with chans := chans }, [])
        | change :: others => sysRecv args others (change { s with chans := chans })
          (state.wake channel)

/-! ## The claim -/

/-- A call that returns an error leaves everything as it was, but for what others have changed. -/
def Intact (args : Args) (others : List (Shared τ → Shared τ)) (s : Shared τ) (state : State) : Prop :=
  ∀ e < 0, (sysRecv args others s state).1 = some e →
    ∀ changes, others = changes ++ (sysRecv args others s state).2.2 →
      (sysRecv args others s state).2.1 = changes.foldl (fun s change => change s) s

/-- The bytes from `uva` on are mapped. -/
def Mapped (space : PageMap τ) (uva len : ℕ) : Prop := ∀ i < len, (space.translate (uva + i)).isSome

/-- If the call finds a message, what it copies goes to bytes that are mapped. -/
def Deliverable (args : Args) : (others : List (Shared τ → Shared τ)) → Shared τ → Prop
  | others, s =>
    match Receive.resolve s.table args.pid args.slot with
    | .error _ => True
    | .ok channel =>
      match Ipc.queued s.chans channel with
      | msg :: _ => Mapped s.space args.ptr (min msg.bytes.length args.len) ∧
          (args.fromPtr ≠ 0 → Mapped s.space args.fromPtr 8)
      | [] =>
        match others with
        | [] => True
        | change :: others => Deliverable args others (change s)

/-! ## The call -/

/-- The queue is empty, and nothing changes; or its first message is taken. -/
theorem recvOrPrepare_eq (chans : Channels) (state : State) (channel token : ℕ) :
    (Ipc.queued chans channel = [] ∧
      ∃ state', Ipc.recvOrPrepare chans state channel token = (chans, state', none)) ∨
    ∃ msg chans', Ipc.queued chans channel = msg :: Ipc.queued chans' channel ∧
      Ipc.recvOrPrepare chans state channel token = (chans', state, some msg) := by
  cases hr : Ipc.recvOrPrepare chans state channel token with
  | mk chans' rest =>
    obtain ⟨state', r⟩ := rest
    rcases Ipc.recvOrPrepare_cases hr with ⟨msg, rfl, rfl, hm⟩ | ⟨rfl, rfl, -⟩
    · refine .inr ⟨msg, chans', ?_, rfl⟩
      rw [← List.append_nil (Ipc.queued chans channel), ← hm.queue]
      rfl
    · refine .inl ⟨?_, state', rfl⟩
      unfold Ipc.recvOrPrepare at hr
      unfold Ipc.queued
      cases hc : chans'[channel]? with
      | none => rfl
      | some ch =>
        rw [hc] at hr
        dsimp only at hr
        cases hq : ch.queue with
        | nil => exact hq
        | cons msg rest =>
          rw [hq] at hr
          exact absurd (congrArg (fun x => x.2.2) hr) nofun

/-- A message that has been taken is delivered exactly when what is copied is mapped. -/
theorem deliver_neg_iff {args : Args} {msg : Message} {space : PageMap τ} {mem : Memory} :
    (deliver args msg space mem).1 < 0 ↔
      ¬(Mapped space args.ptr (min msg.bytes.length args.len) ∧
        (args.fromPtr ≠ 0 → Mapped space args.fromPtr 8)) := by
  have hbody : (Mm.copyToUser space args.ptr
      (msg.bytes.take (min msg.bytes.length args.len)) mem).1 = .ok () ↔ _ := Mm.copyToUser_ok_iff
  rw [List.length_take, Nat.min_eq_left (Nat.min_le_left ..)] at hbody
  unfold deliver
  dsimp only
  cases hcopy : Mm.copyToUser space args.ptr (msg.bytes.take (min msg.bytes.length args.len)) mem with
  | mk result mem' =>
    rw [hcopy] at hbody
    cases result with
    | error why =>
      refine iff_of_true (show EFAULT < 0 by decide) fun h => ?_
      cases hbody.mpr h.1
    | ok u =>
      cases u
      have hmapped := hbody.mp rfl
      dsimp only
      by_cases hfrom : args.fromPtr ≠ 0
      · have hsender : (Mm.copyToUser space args.fromPtr (Bytes.leList 8 msg.source) mem').1 =
            .ok () ↔ _ := Mm.copyToUser_ok_iff
        rw [Bytes.length_leList] at hsender
        rw [if_pos hfrom]
        cases hcopy' : Mm.copyToUser space args.fromPtr (Bytes.leList 8 msg.source) mem' with
        | mk result mem'' =>
          rw [hcopy'] at hsender
          cases result with
          | error why =>
            refine iff_of_true (show EFAULT < 0 by decide) fun h => ?_
            cases hsender.mpr (h.2 hfrom)
          | ok u =>
            cases u
            exact iff_of_false (Int.not_lt.mpr (Int.natCast_nonneg _))
              (not_not.mpr ⟨hmapped, fun _ => hsender.mp rfl⟩)
      · rw [if_neg hfrom]
        exact iff_of_false (Int.not_lt.mpr (Int.natCast_nonneg _))
          (not_not.mpr ⟨hmapped, fun h => absurd h hfrom⟩)

section

variable {args : Args} {others : List (Shared τ → Shared τ)} {s : Shared τ} {state : State}
  {channel : ℕ}

/-- The capability does not resolve, and nothing changes. -/
theorem sysRecv_error {e : ℤ} (hres : Receive.resolve s.table args.pid args.slot = .error e) :
    sysRecv args others s state = (some e, s, others) := by
  unfold sysRecv
  rw [hres]

/-- A message is taken. -/
theorem sysRecv_taken (hres : Receive.resolve s.table args.pid args.slot = .ok channel)
    {msg : Message} {chans : Channels}
    (hr : Ipc.recvOrPrepare s.chans state channel channel = (chans, state, some msg)) :
    sysRecv args others s state = (some (deliver args msg s.space s.mem).1,
      { s with chans := chans, mem := (deliver args msg s.space s.mem).2 }, others) := by
  unfold sysRecv
  rw [hres]
  dsimp only
  rw [hr]

/-- Nobody wakes the call. -/
theorem sysRecv_stuck (hres : Receive.resolve s.table args.pid args.slot = .ok channel)
    {state' : State} (hr : Ipc.recvOrPrepare s.chans state channel channel = (s.chans, state', none)) :
    sysRecv args [] s state = (none, s, []) := by
  unfold sysRecv
  rw [hres]
  dsimp only
  rw [hr]

/-- The call goes on after others have made a change. -/
theorem sysRecv_woken (hres : Receive.resolve s.table args.pid args.slot = .ok channel)
    {state' : State} (hr : Ipc.recvOrPrepare s.chans state channel channel = (s.chans, state', none))
    (change : Shared τ → Shared τ) : sysRecv args (change :: others) s state =
      sysRecv args others (change s) (state'.wake channel) := by
  conv_lhs => unfold sysRecv
  rw [hres]
  dsimp only
  rw [hr]

/-- The changes that are still to come are the last ones. -/
theorem length_rest_le (args : Args) (others : List (Shared τ → Shared τ)) :
    ∀ (s : Shared τ) (state : State), (sysRecv args others s state).2.2.length ≤ others.length := by
  induction others with
  | nil =>
    intro s state
    cases hres : Receive.resolve s.table args.pid args.slot with
    | error e => rw [sysRecv_error hres]
    | ok channel =>
      rcases recvOrPrepare_eq s.chans state channel channel with ⟨-, state', hr⟩ | ⟨msg, chans, -, hr⟩
      · rw [sysRecv_stuck hres hr]
      · rw [sysRecv_taken hres hr]
  | cons change others ih =>
    intro s state
    cases hres : Receive.resolve s.table args.pid args.slot with
    | error e => rw [sysRecv_error hres]
    | ok channel =>
      rcases recvOrPrepare_eq s.chans state channel channel with ⟨-, state', hr⟩ | ⟨msg, chans, -, hr⟩
      · rw [sysRecv_woken hres hr]
        exact Nat.le_succ_of_le (ih (change s) (state'.wake channel))
      · rw [sysRecv_taken hres hr]

theorem intact_of_error {e : ℤ} (hres : Receive.resolve s.table args.pid args.slot = .error e) :
    Intact args others s state := by
  unfold Intact
  rw [sysRecv_error hres]
  intro _ _ _ changes hchanges
  rw [List.self_eq_append_left.mp hchanges]
  rfl

/-- A call that takes a message. -/
theorem intact_taken (hres : Receive.resolve s.table args.pid args.slot = .ok channel)
    {msg : Message} {chans : Channels}
    (hr : Ipc.recvOrPrepare s.chans state channel channel = (chans, state, some msg))
    (hqueue : Ipc.queued s.chans channel = msg :: Ipc.queued chans channel) :
    Intact args others s state ↔ 0 ≤ (deliver args msg s.space s.mem).1 := by
  unfold Intact
  rw [sysRecv_taken hres hr]
  constructor
  · intro h
    refine Int.not_lt.mp fun hneg => ?_
    -- the queue is shorter than it was
    have hsame : { s with chans := chans, mem := (deliver args msg s.space s.mem).2 } = s :=
      h _ hneg rfl [] rfl
    have hlen := congrArg (fun x : Shared τ => (Ipc.queued x.chans channel).length) hsame
    dsimp only at hlen
    rw [hqueue, List.length_cons] at hlen
    omega
  · intro hpos e hneg he
    rw [← Option.some.inj he] at hneg
    exact absurd hneg (Int.not_lt.mpr hpos)

theorem intact_woken (hres : Receive.resolve s.table args.pid args.slot = .ok channel)
    {state' : State} (hr : Ipc.recvOrPrepare s.chans state channel channel = (s.chans, state', none))
    (change : Shared τ → Shared τ) : Intact args (change :: others) s state ↔
      Intact args others (change s) (state'.wake channel) := by
  have hrest := length_rest_le args others (change s) (state'.wake channel)
  unfold Intact
  rw [sysRecv_woken hres hr]
  constructor
  · intro h e hneg he changes hchanges
    exact h e hneg he (change :: changes) (by rw [List.cons_append, ← hchanges])
  · intro h e hneg he changes hchanges
    cases changes with
    | nil =>
      -- the change has been made
      have hlen := congrArg List.length hchanges
      rw [List.nil_append, List.length_cons] at hlen
      omega
    | cons first changes =>
      rw [List.cons_append] at hchanges
      obtain ⟨rfl, hothers⟩ := List.cons.inj hchanges
      exact h e hneg he changes hothers

end

/-- A call that returns an error leaves everything as it was exactly when the message that it finds,
if any, can be copied. -/
theorem intact_iff (args : Args) (others : List (Shared τ → Shared τ)) :
    ∀ (s : Shared τ) (state : State), Intact args others s state ↔ Deliverable args others s := by
  induction others with
  | nil =>
    intro s state
    unfold Deliverable
    cases hres : Receive.resolve s.table args.pid args.slot with
    | error e => exact iff_of_true (intact_of_error hres) trivial
    | ok channel =>
      dsimp only
      rcases recvOrPrepare_eq s.chans state channel channel with
        ⟨hqueue, state', hr⟩ | ⟨msg, chans, hqueue, hr⟩
      · rw [hqueue]
        refine iff_of_true ?_ trivial
        unfold Intact
        rw [sysRecv_stuck hres hr]
        exact nofun
      · rw [intact_taken hres hr hqueue, ← Int.not_lt, deliver_neg_iff, not_not, hqueue]
  | cons change others ih =>
    intro s state
    unfold Deliverable
    cases hres : Receive.resolve s.table args.pid args.slot with
    | error e => exact iff_of_true (intact_of_error hres) trivial
    | ok channel =>
      dsimp only
      rcases recvOrPrepare_eq s.chans state channel channel with
        ⟨hqueue, state', hr⟩ | ⟨msg, chans, hqueue, hr⟩
      · rw [hqueue, intact_woken hres hr]
        exact ih (change s) (state'.wake channel)
      · rw [intact_taken hres hr hqueue, ← Int.not_lt, deliver_neg_iff, not_not, hqueue]

/-! ## A lost message -/

/-- A process with a channel to receive from, where a byte waits, and with no memory mapped. -/
def unmapped : Shared Unit :=
  { table := [(Vector.replicate Proc.CAP_SLOTS none).setIfInBounds 0
      (some ⟨1, .channel 0, RIGHT_RECV, false, "", ""⟩)]
    chans := [⟨[⟨7, [42]⟩], 1, 0⟩]
    space := fun _ => none
    mem := fun _ => Vector.replicate PAGE_SIZE 0 }

/-- The call fails, and the message is gone. -/
theorem message_lost : (sysRecv ⟨0, 0, 4096, 64, 0⟩ [] unmapped .runnable).1 = some EFAULT ∧
    Ipc.queued (sysRecv ⟨0, 0, 4096, 64, 0⟩ [] unmapped .runnable).2.1.chans 0 = [] ∧
    ¬Intact ⟨0, 0, 4096, 64, 0⟩ [] unmapped .runnable := by
  have hqueue : Ipc.queued (sysRecv ⟨0, 0, 4096, 64, 0⟩ [] unmapped .runnable).2.1.chans 0 = [] := rfl
  refine ⟨rfl, hqueue, fun h => ?_⟩
  rw [h EFAULT (by decide) rfl [] rfl] at hqueue
  cases hqueue

end JungeyOs.Delivery
