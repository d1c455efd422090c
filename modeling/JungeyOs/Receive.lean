import JungeyOs.Ipc
import JungeyOs.Lib.Run
import JungeyOs.Proc
import Mathlib.Data.Int.Notation
import Mathlib.Logic.Function.Basic

/-!
# Senders, receivers and revokers

Threads that send, receive and revoke, interleaved at the points where they hold a
lock: `ipc::send` (`ipc.rs`), `sys_recv` (`syscall.rs`, lines 141–184), `proc::revoke`
(`proc.rs`, lines 131–161) and the parts of `sched/mod.rs` that change the state of a
thread. Any thread may take its next step at any time. That covers every number of
cores, preemption at every point, and a thread that runs on although it is marked
`Blocked`; `schedule` itself changes no thread's `State`.

Results:
* `no_wakeup_lost`: received and queued messages are the sent ones in order, and a
  thread that waits on a channel with a message will be woken.
* `revoked_receivers_leave`: after a revoke has made its wake-ups, no receiver waits
  on what it marked, as long as nobody begins to wait on it too late.
* `late_receiver_stuck`: a run in which a receiver does.
-/

namespace JungeyOs.Receive

open Ipc
open Sched (State)

/-! ## Resolving a capability (`syscall.rs`, lines 33–35 and 145–158) -/

def EBADCAP : ℤ := -1
def EPERM : ℤ := -2
def EREVOKED : ℤ := -3
def EINVAL : ℤ := -5

/-- What `sys_recv` makes of its slot each time round. -/
def resolve (table : Proc.Table) (pid slot : ℕ) : Except ℤ ℕ :=
  match Proc.lookupCap table pid slot with
  | none => .error EBADCAP
  | some cap =>
    if cap.revoked then .error EREVOKED
    else if !cap.allows RIGHT_RECV then .error EPERM
    else match cap.channel with
      | none => .error EINVAL
      | some channel => .ok channel

theorem resolve_ok {table : Proc.Table} {pid slot channel : ℕ}
    (h : resolve table pid slot = .ok channel) :
    ∃ c, Proc.lookupCap table pid slot = some c ∧ c.channel = some channel := by
  unfold resolve at h
  cases hc : Proc.lookupCap table pid slot with
  | none => rw [hc] at h; cases h
  | some c =>
    rw [hc] at h
    dsimp only at h
    split_ifs at h
    cases hch : c.channel with
    | none => rw [hch] at h; cases h
    | some channel' => rw [hch] at h; cases h; exact ⟨c, rfl, hch⟩

/-! ## The system -/

/-- The slots that a revoke marked. -/
abbrev Marks := ℕ → ℕ → Bool

/-- Where a thread stands between two steps. -/
inductive Pc
  /-- in no call that is modelled here -/
  | user
  /-- in `ipc::send`, after its message was queued -/
  | sendWake (channel : ℕ)
  /-- in `sys_recv`, at the head of the loop -/
  | recvLoop (pid slot : ℕ)
  /-- in `sys_recv`, with the capability resolved -/
  | recvReady (pid slot channel : ℕ)
  /-- in `sys_recv`, in `sched::block` -/
  | recvBlock (pid slot channel : ℕ)
  /-- in `proc::revoke`, with channels left to wake -/
  | revoking (marks : Marks) (pending : List ℕ)

/-- `sentTo` and `takenFrom` record what was queued on each channel and what was
taken from it, oldest first; `done` the revokes that returned. -/
structure Sys where
  ledger : Ledger
  table : Proc.Table
  chans : Channels
  state : ℕ → State
  pc : ℕ → Pc
  sentTo : ℕ → List Message
  takenFrom : ℕ → List Message
  done : List Marks

/-- A step. `t` is the thread that takes it. -/
inductive Act
  | create
  | send (t channel source : ℕ) (bytes : List UInt8)
  | sendWake (t : ℕ)
  | tryRecv (t channel : ℕ)
  | recv (t pid slot : ℕ)
  | resolve (t : ℕ)
  | take (t : ℕ)
  | unblock (t : ℕ)
  | revoke (t id : ℕ)
  | revokeWake (t : ℕ)
  | revokeDone (t : ℕ)
  | sleep (t deadline : ℕ)
  | tick (now : ℕ)

namespace Sys

/-- Thread `t` moves on. -/
def goto (s : Sys) (t : ℕ) (p : Pc) : Sys := { s with pc := Function.update s.pc t p }

/-- What `r` took from a channel is recorded. -/
def took (s : Sys) (channel : ℕ) (r : Option Message) : Sys :=
  { s with takenFrom := Function.update s.takenFrom channel (s.takenFrom channel ++ r.toList) }

/-- `wake_all_on` (`sched/mod.rs`, lines 509–526). -/
def wakeAllOn (s : Sys) (token : ℕ) : Sys := { s with state := fun t => (s.state t).wake token }

/-- The slots that `revoke` will mark. -/
def marks (s : Sys) (id : ℕ) : Marks := fun pid slot =>
  (Proc.lookupCap s.table pid slot).any (Proc.condemned s.ledger id)

def step (s : Sys) : Act → Option Sys
  | .create => some { s with chans := Ipc.create s.chans }
  | .send t channel source bytes =>
    match s.pc t with
    | .user =>
      match Ipc.send s.chans channel source bytes with
      | .error _ => some s
      | .ok chans => some (goto { s with
          chans := chans
          sentTo := Function.update s.sentTo channel (s.sentTo channel ++ [⟨source, bytes⟩]) }
          t (.sendWake channel))
    | _ => none
  | .sendWake t =>
    match s.pc t with
    | .sendWake channel => some ((s.wakeAllOn channel).goto t .user)
    | _ => none
  | .tryRecv t channel =>
    match s.pc t with
    | .user =>
      let (chans, r) := Ipc.tryRecv s.chans channel
      some (took { s with chans := chans } channel r)
    | _ => none
  | .recv t pid slot =>
    match s.pc t with
    | .user => some (s.goto t (.recvLoop pid slot))
    | _ => none
  | .resolve t =>
    match s.pc t with
    | .recvLoop pid slot =>
      match Receive.resolve s.table pid slot with
      | .error _ => some (s.goto t .user)
      | .ok channel => some (s.goto t (.recvReady pid slot channel))
    | _ => none
  | .take t =>
    match s.pc t with
    | .recvReady pid slot channel =>
      let (chans, state, r) := recvOrPrepare s.chans (s.state t) channel channel
      let s := took { s with chans := chans, state := Function.update s.state t state } channel r
      some (s.goto t (if r.isSome then .user else .recvBlock pid slot channel))
    | _ => none
  | .unblock t =>
    match s.pc t with
    | .recvBlock pid slot channel =>
      if s.state t = .blocked channel then some s else some (s.goto t (.recvLoop pid slot))
    | _ => none
  | .revoke t id =>
    match s.pc t with
    | .user =>
      let (table, _, affected) := Proc.sweep s.ledger s.table id
      some (goto { s with table := table } t (.revoking (s.marks id) affected))
    | _ => none
  | .revokeWake t =>
    match s.pc t with
    | .revoking marks (channel :: rest) =>
      some ((s.wakeAllOn channel).goto t (.revoking marks rest))
    | _ => none
  | .revokeDone t =>
    match s.pc t with
    | .revoking marks [] => some (goto { s with done := marks :: s.done } t .user)
    | _ => none
  | .sleep t deadline =>
    match s.pc t with
    | .user => some { s with state := Function.update s.state t (.sleeping deadline) }
    | _ => none
  | .tick now => some { s with state := fun t => (s.state t).wakeSleeper now }

/-- Any capability tables; no channel yet, and no thread in a call. -/
structure Init (s : Sys) : Prop where
  chans : s.chans = []
  state : ∀ t token, s.state t ≠ .blocked token
  pc : ∀ t, s.pc t = .user
  sentTo : ∀ channel, s.sentTo channel = []
  takenFrom : ∀ channel, s.takenFrom channel = []
  done : s.done = []

/-- Everything a step can do, one case for each way it can go. -/
inductive Did (s : Sys) : Act → Sys → Prop
  | created : Did s .create { s with chans := Ipc.create s.chans }
  | refused {t channel source : ℕ} {bytes : List UInt8} : Did s (.send t channel source bytes) s
  | sent {t channel source : ℕ} {bytes : List UInt8} {chans : Channels} (hpc : s.pc t = .user)
      (hsend : Ipc.send s.chans channel source bytes = .ok chans) :
      Did s (.send t channel source bytes) (goto { s with
        chans := chans
        sentTo := Function.update s.sentTo channel (s.sentTo channel ++ [⟨source, bytes⟩]) }
        t (.sendWake channel))
  | woke {t channel : ℕ} (hpc : s.pc t = .sendWake channel) :
      Did s (.sendWake t) ((s.wakeAllOn channel).goto t .user)
  | tried {t channel : ℕ} {chans : Channels} {r : Option Message}
      (htry : Ipc.tryRecv s.chans channel = (chans, r)) :
      Did s (.tryRecv t channel) (took { s with chans := chans } channel r)
  | called {t pid slot : ℕ} (hpc : s.pc t = .user) :
      Did s (.recv t pid slot) (s.goto t (.recvLoop pid slot))
  | failed {t pid slot : ℕ} (hpc : s.pc t = .recvLoop pid slot) :
      Did s (.resolve t) (s.goto t .user)
  | resolved {t pid slot channel : ℕ} (hpc : s.pc t = .recvLoop pid slot)
      (hres : Receive.resolve s.table pid slot = .ok channel) :
      Did s (.resolve t) (s.goto t (.recvReady pid slot channel))
  | received {t pid slot channel : ℕ} {chans : Channels} {m : Message}
      (hpc : s.pc t = .recvReady pid slot channel)
      (hm : Moved s.chans chans channel [] [m]) :
      Did s (.take t) ((took { s with chans := chans } channel (some m)).goto t .user)
  | noChannel {t pid slot channel : ℕ} (hpc : s.pc t = .recvReady pid slot channel) :
      Did s (.take t) (s.goto t (.recvBlock pid slot channel))
  | blocked {t pid slot channel : ℕ} (hpc : s.pc t = .recvReady pid slot channel)
      (hempty : queued s.chans channel = []) :
      Did s (.take t) (goto { s with state := Function.update s.state t (.blocked channel) } t
        (.recvBlock pid slot channel))
  | waiting {t : ℕ} : Did s (.unblock t) s
  | unblocked {t pid slot channel : ℕ} (hpc : s.pc t = .recvBlock pid slot channel)
      (hstate : s.state t ≠ .blocked channel) :
      Did s (.unblock t) (s.goto t (.recvLoop pid slot))
  | marked {t id : ℕ} (hpc : s.pc t = .user) :
      Did s (.revoke t id) (goto { s with table := (Proc.sweep s.ledger s.table id).1 } t
        (.revoking (s.marks id) (Proc.sweep s.ledger s.table id).2.2))
  | wokeRevoked {t channel : ℕ} {marks : Marks} {rest : List ℕ}
      (hpc : s.pc t = .revoking marks (channel :: rest)) :
      Did s (.revokeWake t) ((s.wakeAllOn channel).goto t (.revoking marks rest))
  | revoked {t : ℕ} {marks : Marks} (hpc : s.pc t = .revoking marks []) :
      Did s (.revokeDone t) (goto { s with done := marks :: s.done } t .user)
  | slept {t deadline : ℕ} :
      Did s (.sleep t deadline) { s with state := Function.update s.state t (.sleeping deadline) }
  | ticked {now : ℕ} : Did s (.tick now) { s with state := fun t => (s.state t).wakeSleeper now }

theorem took_none (s : Sys) (channel : ℕ) : s.took channel none = s := by
  rw [took, Option.toList_none, List.append_nil, Function.update_eq_self]

/-- `recv_or_prepare` and what the caller does with its answer. -/
theorem did_take {s : Sys} {t pid slot channel : ℕ} (hpc : s.pc t = .recvReady pid slot channel) :
    ∀ {chans state r}, recvOrPrepare s.chans (s.state t) channel channel = (chans, state, r) →
      Did s (.take t) ((took { s with chans := chans, state := Function.update s.state t state }
        channel r).goto t (if r.isSome then .user else .recvBlock pid slot channel)) := by
  intro chans state r h
  rcases recvOrPrepare_cases h with ⟨m, rfl, rfl, hm⟩ | ⟨rfl, rfl, rfl | ⟨rfl, hempty⟩⟩
  · rw [Function.update_eq_self]
    exact .received hpc hm
  · rw [Function.update_eq_self, took_none]
    exact .noChannel hpc
  · rw [took_none]
    exact .blocked hpc hempty

theorem step_did {s s' : Sys} {a : Act} (hs : s.step a = some s') : Did s a s' := by
  cases a with
  | create => cases hs; exact .created
  | send t channel source bytes =>
    cases hpc : s.pc t with
    | user =>
      simp only [step, hpc] at hs
      cases hsend : Ipc.send s.chans channel source bytes with
      | error e => rw [hsend] at hs; cases hs; exact .refused
      | ok chans => rw [hsend] at hs; cases hs; exact .sent hpc hsend
    | _ => simp [step, hpc] at hs
  | sendWake t =>
    cases hpc : s.pc t with
    | sendWake channel => simp only [step, hpc] at hs; cases hs; exact .woke hpc
    | _ => simp [step, hpc] at hs
  | tryRecv t channel =>
    cases hpc : s.pc t with
    | user => simp only [step, hpc] at hs; cases hs; exact .tried rfl
    | _ => simp [step, hpc] at hs
  | recv t pid slot =>
    cases hpc : s.pc t with
    | user => simp only [step, hpc] at hs; cases hs; exact .called hpc
    | _ => simp [step, hpc] at hs
  | resolve t =>
    cases hpc : s.pc t with
    | recvLoop pid slot =>
      simp only [step, hpc] at hs
      cases hres : Receive.resolve s.table pid slot with
      | error e => rw [hres] at hs; cases hs; exact .failed hpc
      | ok channel => rw [hres] at hs; cases hs; exact .resolved hpc hres
    | _ => simp [step, hpc] at hs
  | take t =>
    cases hpc : s.pc t with
    | recvReady pid slot channel => simp only [step, hpc] at hs; cases hs; exact did_take hpc rfl
    | _ => simp [step, hpc] at hs
  | unblock t =>
    cases hpc : s.pc t with
    | recvBlock pid slot channel =>
      simp only [step, hpc] at hs
      split_ifs at hs with hstate
      · cases hs; exact .waiting
      · cases hs; exact .unblocked hpc hstate
    | _ => simp [step, hpc] at hs
  | revoke t id =>
    cases hpc : s.pc t with
    | user => simp only [step, hpc] at hs; cases hs; exact .marked hpc
    | _ => simp [step, hpc] at hs
  | revokeWake t =>
    cases hpc : s.pc t with
    | revoking marks pending =>
      cases pending with
      | nil => simp [step, hpc] at hs
      | cons channel rest => simp only [step, hpc] at hs; cases hs; exact .wokeRevoked hpc
    | _ => simp [step, hpc] at hs
  | revokeDone t =>
    cases hpc : s.pc t with
    | revoking marks pending =>
      cases pending with
      | nil => simp only [step, hpc] at hs; cases hs; exact .revoked hpc
      | cons channel rest => simp [step, hpc] at hs
    | _ => simp [step, hpc] at hs
  | sleep t deadline =>
    cases hpc : s.pc t with
    | user => simp only [step, hpc] at hs; cases hs; exact .slept
    | _ => simp [step, hpc] at hs
  | tick now => cases hs; exact .ticked

end Sys

/-! ## Messages and wake-ups -/

section Messages

variable {s s' : Sys} {a : Act}

/-- The logs, the queues and the counters agree. -/
def Sys.Logged (s : Sys) : Prop :=
  ∀ channel, s.sentTo channel = s.takenFrom channel ++ queued s.chans channel ∧
    counters s.chans channel = ((s.sentTo channel).length, (s.takenFrom channel).length)

/-- When a thread waits on a channel with a message, a sender is about to wake it. -/
def Sys.Awaited (s : Sys) : Prop :=
  ∀ channel t, queued s.chans channel ≠ [] → s.state t = .blocked channel →
    ∃ u, s.pc u = .sendWake channel

/-- A call that moves messages on one channel and records it. -/
theorem Sys.Logged.moved (h : s.Logged) {channel : ℕ} {added taken : List Message}
    (hm : Moved s.chans s'.chans channel added taken)
    (hsent : s'.sentTo = Function.update s.sentTo channel (s.sentTo channel ++ added))
    (htaken : s'.takenFrom = Function.update s.takenFrom channel (s.takenFrom channel ++ taken)) :
    s'.Logged := by
  intro x
  rw [hsent, htaken]
  by_cases hx : x = channel
  · subst hx
    obtain ⟨hlog, hcount⟩ := h x
    rw [Function.update_self, Function.update_self, hm.counters, hcount]
    refine ⟨?_, by simp⟩
    calc s.sentTo x ++ added
        = s.takenFrom x ++ (queued s.chans x ++ added) := by rw [hlog, List.append_assoc]
      _ = s.takenFrom x ++ taken ++ queued s'.chans x := by rw [← hm.queue, List.append_assoc]
  · obtain ⟨hq, hc⟩ := hm.others x hx
    rw [Function.update_of_ne hx, Function.update_of_ne hx, hq, hc]
    exact h x

/-- A step that sends nothing, blocks nobody and wakes nobody from a send. -/
theorem Sys.Awaited.keep (h : s.Awaited)
    (hq : ∀ x, queued s'.chans x ≠ [] → queued s.chans x ≠ [])
    (hb : ∀ t token, s'.state t = .blocked token → s.state t = .blocked token)
    (hp : ∀ t channel, s.pc t = .sendWake channel → s'.pc t = .sendWake channel) :
    s'.Awaited := by
  intro channel t hne ht
  obtain ⟨u, hu⟩ := h channel t (hq channel hne) (hb t channel ht)
  exact ⟨u, hp u channel hu⟩

/-- A thread that is not in a send moves on; the others stay. -/
theorem Sys.sendWake_goto {t : ℕ} {p : Pc} (ht : ∀ channel, s.pc t ≠ .sendWake channel) :
    ∀ u channel, s.pc u = .sendWake channel → (s.goto t p).pc u = .sendWake channel := by
  intro u channel hu
  have hne : u ≠ t := by
    rintro rfl
    exact ht channel hu
  exact (Function.update_of_ne hne _ _).trans hu

/-- Every step keeps the logs, the queues and the counters in agreement. -/
theorem logged_step (h : s.Logged) (hs : s.step a = some s') : s'.Logged := by
  cases Sys.step_did hs with
  | created =>
    intro x
    rw [queued_create, counters_create]
    exact h x
  | sent _ hsend => exact h.moved (send_ok hsend) rfl (by simp [Sys.goto])
  | tried htry => exact h.moved (moved_tryRecv htry) (by simp [Sys.took]) rfl
  | received _ hm => exact h.moved hm (by simp [Sys.took, Sys.goto]) rfl
  | _ => exact h

/-- Every step keeps a sender on its way to whoever waits for a message. -/
theorem awaited_step (h : s.Awaited) (hs : s.step a = some s') : s'.Awaited := by
  cases Sys.step_did hs with
  | created => exact h.keep (fun x hx => by rwa [queued_create] at hx) (fun _ _ => id) fun _ _ => id
  | refused => exact h
  | @sent t channel source bytes chans hpc hsend =>
    intro x u hne hu
    by_cases hx : x = channel
    · subst hx
      exact ⟨t, Function.update_self _ _ _⟩
    · have hq : queued s.chans x ≠ [] := by rwa [← ((send_ok hsend).others x hx).1]
      obtain ⟨v, hv⟩ := h x u hq hu
      exact ⟨v, Sys.sendWake_goto (by simp [hpc]) v x hv⟩
  | @woke t channel hpc =>
    intro x u hne hu
    have hx : x ≠ channel := by
      rintro rfl
      exact State.wake_ne_blocked _ _ hu
    obtain ⟨v, hv⟩ := h x u hne (State.wake_eq_blocked hu)
    have hvt : v ≠ t := by
      rintro rfl
      rw [hpc] at hv
      cases hv
      exact hx rfl
    exact ⟨v, (Function.update_of_ne hvt _ _).trans hv⟩
  | tried htry => exact h.keep (fun _ => (moved_tryRecv htry).ne_nil) (fun _ _ => id) fun _ _ => id
  | received hpc hm =>
    exact h.keep (fun _ => hm.ne_nil) (fun _ _ => id) (Sys.sendWake_goto (by simp [hpc]))
  | @blocked t pid slot channel hpc hempty =>
    intro x u hne hu
    -- the thread that begins to wait found the queue empty
    have hut : u ≠ t := by
      rintro rfl
      have hx := (Function.update_self _ _ _).symm.trans hu
      cases hx
      exact hne hempty
    obtain ⟨v, hv⟩ := h x u hne ((Function.update_of_ne hut _ _).symm.trans hu)
    exact ⟨v, Sys.sendWake_goto (by simp [hpc]) v x hv⟩
  | wokeRevoked hpc =>
    exact h.keep (fun _ => id) (fun _ _ => State.wake_eq_blocked)
      (Sys.sendWake_goto (s := s.wakeAllOn _) (by simp [Sys.wakeAllOn, hpc]))
  | ticked => exact h.keep (fun _ => id) (fun _ _ => State.wakeSleeper_eq_blocked) fun _ _ => id
  | @slept t deadline =>
    refine h.keep (fun _ => id) (fun u token hu => ?_) fun _ _ => id
    have hut : u ≠ t := by
      rintro rfl
      exact absurd ((Function.update_self _ _ _).symm.trans hu) (by simp)
    exact (Function.update_of_ne hut _ _).symm.trans hu
  | waiting => exact h
  | called hpc => exact h.keep (fun _ => id) (fun _ _ => id) (Sys.sendWake_goto (by simp [hpc]))
  | failed hpc => exact h.keep (fun _ => id) (fun _ _ => id) (Sys.sendWake_goto (by simp [hpc]))
  | resolved hpc => exact h.keep (fun _ => id) (fun _ _ => id) (Sys.sendWake_goto (by simp [hpc]))
  | noChannel hpc => exact h.keep (fun _ => id) (fun _ _ => id) (Sys.sendWake_goto (by simp [hpc]))
  | unblocked hpc => exact h.keep (fun _ => id) (fun _ _ => id) (Sys.sendWake_goto (by simp [hpc]))
  | marked hpc => exact h.keep (fun _ => id) (fun _ _ => id) (Sys.sendWake_goto (by simp [hpc]))
  | revoked hpc => exact h.keep (fun _ => id) (fun _ _ => id) (Sys.sendWake_goto (by simp [hpc]))

/-- In every reachable state: what was received on a channel is, in order and without
loss or duplicate, what was sent first, and the rest is queued; and where a thread is
`Blocked` on a channel with a message, a sender to it is between its enqueue and its
wake-up. -/
theorem no_wakeup_lost (h : Run.Reachable Sys.step Run.always Sys.Init s) :
    (∀ channel, s.takenFrom channel <+: s.sentTo channel ∧
      s.sentTo channel = s.takenFrom channel ++ queued s.chans channel ∧
      counters s.chans channel =
        ((s.sentTo channel).length, (s.takenFrom channel).length)) ∧
    ∀ channel t, queued s.chans channel ≠ [] → s.state t = .blocked channel →
      ∃ u, s.pc u = .sendWake channel := by
  have hinv : s.Logged ∧ s.Awaited := by
    refine Run.Reachable.invariant (fun s => s.Logged ∧ s.Awaited) (fun s hi => ⟨?_, ?_⟩)
      (fun _ _ _ hi _ hs => ⟨logged_step hi.1 hs, awaited_step hi.2 hs⟩) h
    · intro channel
      rw [hi.sentTo, hi.takenFrom, hi.chans]
      exact ⟨rfl, rfl⟩
    · intro channel t _ ht
      exact absurd ht (hi.state t channel)
  exact ⟨fun channel => ⟨⟨_, (hinv.1 channel).1.symm⟩, hinv.1 channel⟩, hinv.2⟩

end Messages

/-! ## Revocation and waiting receivers -/

section Revocation

variable {s s' : Sys} {a : Act}

/-- A revoke that has marked its slots, and the channels that it has yet to wake. -/
def Sys.Revoked (s : Sys) (marks : Marks) (pending : List ℕ) : Prop :=
  (∃ u, s.pc u = .revoking marks pending) ∨ marks ∈ s.done ∧ pending = []

/-- Thread `t` waits in `sys_recv` on a slot. -/
def Sys.Waits (s : Sys) (t pid slot channel : ℕ) : Prop :=
  s.pc t = .recvBlock pid slot channel ∧ s.state t = .blocked channel

/-- No thread waits on a slot that was marked by a revoke which has made all its
wake-ups. -/
def Sys.Released (s : Sys) : Prop :=
  ∀ marks, s.Revoked marks [] → ∀ t pid slot channel, s.Waits t pid slot channel →
    marks pid slot = false

/-- The step does not mark a thread `Blocked` with a capability that was revoked since
it was resolved, after the wake-up that was meant for it. -/
def Sys.InTime (s : Sys) (a : Act) : Prop :=
  ∀ t pid slot channel, a = .take t → s.pc t = .recvReady pid slot channel →
    queued s.chans channel = [] → ∀ marks pending, s.Revoked marks pending →
      marks pid slot = true → channel ∈ pending

/-- A thread in `sys_recv` uses the channel of the capability in its slot, and only a
thread in `sched::block` is `Blocked`. -/
structure Sys.Placed (s : Sys) : Prop where
  ready : ∀ t pid slot channel, s.pc t = .recvReady pid slot channel →
    ∃ c, Proc.lookupCap s.table pid slot = some c ∧ c.channel = some channel
  block : ∀ t pid slot channel, s.pc t = .recvBlock pid slot channel →
    ∃ c, Proc.lookupCap s.table pid slot = some c ∧ c.channel = some channel
  blocked : ∀ t token, s.state t = .blocked token →
    ∃ pid slot, s.pc t = .recvBlock pid slot token

/-- What a revoke marked is revoked, and a thread that waits on it has a wake-up
coming. -/
structure Sys.Coming (s : Sys) : Prop where
  dead : ∀ marks pending, s.Revoked marks pending → ∀ pid slot, marks pid slot = true →
    ∃ c, Proc.lookupCap s.table pid slot = some c ∧ c.revoked = true
  pending : ∀ marks pending, s.Revoked marks pending → ∀ t pid slot channel,
    s.Waits t pid slot channel → marks pid slot = true → channel ∈ pending

theorem placed_init (h : s.Init) : s.Placed := by
  refine ⟨fun t pid slot channel ht => ?_, fun t pid slot channel ht => ?_,
    fun t token ht => absurd ht (h.state t token)⟩
  · rw [h.pc] at ht; cases ht
  · rw [h.pc] at ht; cases ht

theorem coming_init (h : s.Init) : s.Coming := by
  have hnone : ∀ marks pending, ¬s.Revoked marks pending := by
    rintro marks pending (⟨u, hu⟩ | ⟨hd, -⟩)
    · rw [h.pc] at hu; cases hu
    · rw [h.done] at hd; cases hd
  exact ⟨fun marks pending hr => absurd hr (hnone _ _), fun marks pending hr => absurd hr (hnone _ _)⟩

theorem update_cases {pc : ℕ → Pc} {t u : ℕ} {p q : Pc} (h : Function.update pc t p u = q) :
    u = t ∧ p = q ∨ u ≠ t ∧ pc u = q := by
  by_cases hu : u = t
  · subst hu
    exact .inl ⟨rfl, (Function.update_self _ _ _).symm.trans h⟩
  · exact .inr ⟨hu, (Function.update_of_ne hu _ _).symm.trans h⟩

theorem Sys.Placed.not_blocked (h : s.Placed) {t : ℕ}
    (hpc : ∀ pid slot channel, s.pc t ≠ .recvBlock pid slot channel) (token : ℕ) :
    s.state t ≠ .blocked token := by
  intro ht
  obtain ⟨pid, slot, hp⟩ := h.blocked t token ht
  exact hpc pid slot token hp

/-- Thread `t` moves on to `p`; the others stay where they are, and slots keep their
channels. -/
theorem Sys.Placed.move (h : s.Placed) {t : ℕ} {p : Pc} (hpc : s'.pc = Function.update s.pc t p)
    (htable : ∀ pid slot channel,
      (∃ c, Proc.lookupCap s.table pid slot = some c ∧ c.channel = some channel) →
      ∃ c, Proc.lookupCap s'.table pid slot = some c ∧ c.channel = some channel)
    (hready : ∀ pid slot channel, p = .recvReady pid slot channel ∨ p = .recvBlock pid slot channel →
      ∃ c, Proc.lookupCap s.table pid slot = some c ∧ c.channel = some channel)
    (hself : ∀ token, s'.state t = .blocked token → ∃ pid slot, p = .recvBlock pid slot token)
    (hstate : ∀ u token, u ≠ t → s'.state u = .blocked token → s.state u = .blocked token) :
    s'.Placed := by
  refine ⟨fun u pid slot channel hu => htable pid slot channel ?_,
    fun u pid slot channel hu => htable pid slot channel ?_, fun u token hu => ?_⟩
  · rcases update_cases (hpc ▸ hu) with ⟨-, hp⟩ | ⟨-, hu⟩
    · exact hready pid slot channel (.inl hp)
    · exact h.ready u pid slot channel hu
  · rcases update_cases (hpc ▸ hu) with ⟨-, hp⟩ | ⟨-, hu⟩
    · exact hready pid slot channel (.inr hp)
    · exact h.block u pid slot channel hu
  · rw [hpc]
    by_cases hut : u = t
    · subst hut
      rw [Function.update_self]
      exact hself token hu
    · rw [Function.update_of_ne hut]
      exact h.blocked u token (hstate u token hut hu)

/-- Waking threads, or putting them to sleep, makes nobody wait. -/
theorem Sys.Placed.restate (h : s.Placed) (hpc : s'.pc = s.pc) (htable : s'.table = s.table)
    (hstate : ∀ t token, s'.state t = .blocked token → s.state t = .blocked token) : s'.Placed := by
  refine ⟨?_, ?_, fun t token ht => ?_⟩
  · rw [hpc, htable]; exact h.ready
  · rw [hpc, htable]; exact h.block
  · rw [hpc]; exact h.blocked t token (hstate t token ht)

theorem slept_blocked {state : ℕ → State} {t u deadline token : ℕ}
    (h : Function.update state t (.sleeping deadline) u = .blocked token) :
    state u = .blocked token := by
  have hut : u ≠ t := by
    rintro rfl
    exact absurd ((Function.update_self _ _ _).symm.trans h) (by simp)
  exact (Function.update_of_ne hut _ _).symm.trans h

theorem placed_step (h : s.Placed) (hs : s.step a = some s') : s'.Placed := by
  have hsame : ∀ pid slot channel,
      (∃ c, Proc.lookupCap s.table pid slot = some c ∧ c.channel = some channel) →
      ∃ c, Proc.lookupCap s.table pid slot = some c ∧ c.channel = some channel := fun _ _ _ => id
  cases Sys.step_did hs with
  | created => exact h.restate rfl rfl fun _ _ => id
  | refused => exact h
  | waiting => exact h
  | tried => exact h.restate rfl rfl fun _ _ => id
  | slept => exact h.restate rfl rfl fun _ _ => slept_blocked
  | ticked => exact h.restate rfl rfl fun _ _ => State.wakeSleeper_eq_blocked
  | sent hpc =>
    exact h.move rfl hsame (by simp) (fun _ ht => absurd ht (h.not_blocked (by simp [hpc]) _))
      fun _ _ _ => id
  | woke hpc =>
    exact h.move rfl hsame (by simp) (fun _ ht => absurd (State.wake_eq_blocked ht)
      (h.not_blocked (by simp [hpc]) _)) fun _ _ _ => State.wake_eq_blocked
  | called hpc =>
    exact h.move rfl hsame (by simp) (fun _ ht => absurd ht (h.not_blocked (by simp [hpc]) _))
      fun _ _ _ => id
  | failed hpc =>
    exact h.move rfl hsame (by simp) (fun _ ht => absurd ht (h.not_blocked (by simp [hpc]) _))
      fun _ _ _ => id
  | resolved hpc hres =>
    refine h.move rfl hsame (fun pid slot channel hp => ?_)
      (fun _ ht => absurd ht (h.not_blocked (by simp [hpc]) _)) fun _ _ _ => id
    rcases hp with hp | hp <;> cases hp
    exact resolve_ok hres
  | received hpc =>
    exact h.move rfl hsame (by simp) (fun _ ht => absurd ht (h.not_blocked (by simp [hpc]) _))
      fun _ _ _ => id
  | noChannel hpc =>
    refine h.move rfl hsame (fun pid slot channel hp => ?_)
      (fun _ ht => absurd ht (h.not_blocked (by simp [hpc]) _)) fun _ _ _ => id
    rcases hp with hp | hp <;> cases hp
    exact h.ready _ _ _ _ hpc
  | @blocked t pid slot channel hpc =>
    refine h.move rfl hsame (fun pid slot channel hp => ?_) (fun token ht => ?_)
      fun u token hut hu => (Function.update_of_ne hut _ _).symm.trans hu
    · rcases hp with hp | hp <;> cases hp
      exact h.ready _ _ _ _ hpc
    · cases (Function.update_self _ _ _).symm.trans ht
      exact ⟨pid, slot, rfl⟩
  | unblocked hpc hstate =>
    refine h.move rfl hsame (by simp) (fun token ht => ?_) fun _ _ _ => id
    obtain ⟨pid, slot, hp⟩ := h.blocked _ token ht
    rw [hpc] at hp
    cases hp
    exact absurd ht hstate
  | marked hpc =>
    refine h.move rfl ?_ (by simp) (fun _ ht => absurd ht (h.not_blocked (by simp [hpc]) _))
      fun _ _ _ => id
    rintro pid slot channel ⟨c, hc, hch⟩
    obtain ⟨c', hc', hch', -⟩ := Proc.lookupCap_sweep_of_some hc
    exact ⟨c', hc', hch'.trans hch⟩
  | wokeRevoked hpc =>
    exact h.move rfl hsame (by simp) (fun _ ht => absurd (State.wake_eq_blocked ht)
      (h.not_blocked (by simp [hpc]) _)) fun _ _ _ => State.wake_eq_blocked
  | revoked hpc =>
    exact h.move rfl hsame (by simp) (fun _ ht => absurd ht (h.not_blocked (by simp [hpc]) _))
      fun _ _ _ => id

/-- Nothing is marked, and nobody begins to wait; a revoke that went on woke the channels
that it is no longer to wake. -/
theorem Sys.Coming.move (h : s.Coming) (htable : s'.table = s.table)
    (hrev : ∀ marks pending, s'.Revoked marks pending → ∃ pending₀, s.Revoked marks pending₀ ∧
      ∀ x ∈ pending₀, x ∈ pending ∨ ∀ t, s'.state t ≠ .blocked x)
    (hwaits : ∀ t pid slot channel, s'.Waits t pid slot channel → s.Waits t pid slot channel) :
    s'.Coming := by
  refine ⟨fun marks pending hr => ?_, fun marks pending hr t pid slot channel hw hm => ?_⟩
  · obtain ⟨pending₀, hr₀, -⟩ := hrev marks pending hr
    rw [htable]
    exact h.dead marks pending₀ hr₀
  · obtain ⟨pending₀, hr₀, hmem⟩ := hrev marks pending hr
    exact (hmem channel (h.pending marks pending₀ hr₀ t pid slot channel
      (hwaits t pid slot channel hw) hm)).resolve_right fun hno => hno t hw.2

/-- Thread `t` moves from one place to another, and neither is in a revoke. -/
theorem Sys.Coming.goto (h : s.Coming) {t : ℕ} {p : Pc} (hpc : s'.pc = Function.update s.pc t p)
    (htable : s'.table = s.table) (hdone : s'.done = s.done)
    (hp : ∀ marks pending, p ≠ .revoking marks pending)
    (hself : ∀ pid slot channel, p ≠ .recvBlock pid slot channel ∨ ∀ token, s'.state t ≠ .blocked token)
    (hstate : ∀ u token, s'.state u = .blocked token → s.state u = .blocked token) : s'.Coming := by
  refine h.move htable (fun marks pending hr => ⟨pending, ?_, fun _ => .inl⟩)
    fun u pid slot channel hw => ⟨?_, hstate u channel hw.2⟩
  · rcases hr with ⟨u, hu⟩ | hd
    · rcases update_cases (hpc ▸ hu) with ⟨-, hq⟩ | ⟨-, hu⟩
      · exact absurd hq (hp marks pending)
      · exact .inl ⟨u, hu⟩
    · exact .inr (hdone ▸ hd)
  · rcases update_cases (hpc ▸ hw.1) with ⟨rfl, hq⟩ | ⟨-, hu⟩
    · rcases hself pid slot channel with hne | hne
      · exact absurd hq hne
      · exact absurd hw.2 (hne channel)
    · exact hu

theorem coming_step (hp : s.Placed) (h : s.Coming) (hok : s.InTime a) (hs : s.step a = some s') :
    s'.Coming := by
  cases Sys.step_did hs with
  | created => exact ⟨h.dead, h.pending⟩
  | refused => exact h
  | waiting => exact h
  | tried => exact ⟨h.dead, h.pending⟩
  | slept =>
    exact ⟨h.dead, fun marks pending hr t pid slot channel hw =>
      h.pending marks pending hr t pid slot channel ⟨hw.1, slept_blocked hw.2⟩⟩
  | ticked =>
    exact ⟨h.dead, fun marks pending hr t pid slot channel hw =>
      h.pending marks pending hr t pid slot channel ⟨hw.1, State.wakeSleeper_eq_blocked hw.2⟩⟩
  | sent => exact h.goto rfl rfl rfl (by simp) (by simp) fun _ _ => id
  | woke => exact h.goto rfl rfl rfl (by simp) (by simp) fun _ _ => State.wake_eq_blocked
  | called => exact h.goto rfl rfl rfl (by simp) (by simp) fun _ _ => id
  | failed => exact h.goto rfl rfl rfl (by simp) (by simp) fun _ _ => id
  | resolved => exact h.goto rfl rfl rfl (by simp) (by simp) fun _ _ => id
  | received => exact h.goto rfl rfl rfl (by simp) (by simp) fun _ _ => id
  | noChannel hpc =>
    exact h.goto rfl rfl rfl (by simp) (fun _ _ _ => .inr (hp.not_blocked (by simp [hpc])))
      fun _ _ => id
  | unblocked => exact h.goto rfl rfl rfl (by simp) (by simp) fun _ _ => id
  | @blocked t pid slot channel hpc hempty =>
    have hrev : ∀ marks pending, Sys.Revoked (Sys.goto { s with
        state := Function.update s.state t (.blocked channel) } t (.recvBlock pid slot channel))
        marks pending → s.Revoked marks pending := by
      rintro marks pending (⟨u, hu⟩ | hd)
      · rcases update_cases hu with ⟨-, hq⟩ | ⟨-, hu⟩
        · cases hq
        · exact .inl ⟨u, hu⟩
      · exact .inr hd
    refine ⟨fun marks pending hr => h.dead marks pending (hrev _ _ hr),
      fun marks pending hr u pid' slot' channel' hw hm => ?_⟩
    rcases update_cases hw.1 with ⟨-, hq⟩ | ⟨hut, hu⟩
    · -- the thread that begins to wait is in time
      cases hq
      exact hok t pid slot channel rfl hpc hempty marks pending (hrev _ _ hr) hm
    · exact h.pending marks pending (hrev _ _ hr) u pid' slot' channel'
        ⟨hu, (Function.update_of_ne hut _ _).symm.trans hw.2⟩ hm
  | @marked t id hpc =>
    have hrev : ∀ marks pending, Sys.Revoked (Sys.goto
        { s with table := (Proc.sweep s.ledger s.table id).1 } t
        (.revoking (s.marks id) (Proc.sweep s.ledger s.table id).2.2)) marks pending →
        marks = s.marks id ∧ pending = (Proc.sweep s.ledger s.table id).2.2 ∨
          s.Revoked marks pending := by
      rintro marks pending (⟨u, hu⟩ | hd)
      · rcases update_cases hu with ⟨-, hq⟩ | ⟨-, hu⟩
        · cases hq
          exact .inl ⟨rfl, rfl⟩
        · exact .inr (.inl ⟨u, hu⟩)
      · exact .inr (.inr hd)
    refine ⟨fun marks pending hr pid slot hm => ?_, fun marks pending hr u pid slot channel hw hm => ?_⟩
    · rcases hrev marks pending hr with ⟨rfl, -⟩ | hr
      · obtain ⟨c, hc, hcond⟩ := (Option.any_eq_true _ _).mp hm
        obtain ⟨c', hc', -, -, hrevoked⟩ := Proc.lookupCap_sweep_of_some hc
        exact ⟨c', hc', hrevoked hcond⟩
      · obtain ⟨c, hc, hr⟩ := h.dead marks pending hr pid slot hm
        obtain ⟨c', hc', -, hrevoked, -⟩ := Proc.lookupCap_sweep_of_some hc
        exact ⟨c', hc', hrevoked hr⟩
    · rcases update_cases hw.1 with ⟨-, hq⟩ | ⟨-, hu⟩
      · cases hq
      rcases hrev marks pending hr with ⟨rfl, rfl⟩ | hr
      · -- the sweep met the capability that the thread resolved
        obtain ⟨c, hc, hcond⟩ := (Option.any_eq_true _ _).mp hm
        obtain ⟨c', hc', hch⟩ := hp.block u pid slot channel hu
        cases hc.symm.trans hc'
        exact Proc.mem_affected_iff.mpr ⟨pid, slot, c, hc, hcond, hch⟩
      · exact h.pending marks pending hr u pid slot channel ⟨hu, hw.2⟩ hm
  | @wokeRevoked t channel marks rest hpc =>
    refine h.move rfl (fun marks' pending hr => ?_) fun u pid slot channel' hw => ?_
    · rcases hr with ⟨u, hu⟩ | hd
      · rcases update_cases hu with ⟨-, hq⟩ | ⟨-, hu⟩
        · cases hq
          refine ⟨channel :: rest, .inl ⟨t, hpc⟩, fun x hx => ?_⟩
          -- nobody waits on the channel that was just woken
          rcases List.mem_cons.mp hx with rfl | hx
          · exact .inr fun v => State.wake_ne_blocked _ _
          · exact .inl hx
        · exact ⟨pending, .inl ⟨u, hu⟩, fun _ => .inl⟩
      · exact ⟨pending, .inr hd, fun _ => .inl⟩
    · rcases update_cases hw.1 with ⟨-, hq⟩ | ⟨-, hu⟩
      · cases hq
      · exact ⟨hu, State.wake_eq_blocked hw.2⟩
  | @revoked t marks hpc =>
    refine h.move rfl (fun marks' pending hr => ⟨pending, ?_, fun _ => .inl⟩)
      fun u pid slot channel' hw => ?_
    · rcases hr with ⟨u, hu⟩ | ⟨hd, rfl⟩
      · rcases update_cases hu with ⟨-, hq⟩ | ⟨-, hu⟩
        · cases hq
        · exact .inl ⟨u, hu⟩
      · rcases List.mem_cons.mp hd with rfl | hd
        · exact .inl ⟨t, hpc⟩
        · exact .inr ⟨hd, rfl⟩
    · rcases update_cases hw.1 with ⟨-, hq⟩ | ⟨-, hu⟩
      · cases hq
      · exact ⟨hu, hw.2⟩

/-- As long as nobody begins to wait on a revoked capability after the wake-up meant for
it: in every state in which a revoke has made all its wake-ups, no thread is `Blocked`
in a `sys_recv` on a slot that it marked. -/
theorem revoked_receivers_leave (h : Run.Reachable Sys.step Sys.InTime Sys.Init s) : s.Released := by
  have hinv : s.Placed ∧ s.Coming :=
    Run.Reachable.invariant (fun s => s.Placed ∧ s.Coming)
      (fun s hi => ⟨placed_init hi, coming_init hi⟩)
      (fun _ _ _ hi hok hs => ⟨placed_step hi.1 hs, coming_step hi.1 hi.2 hok hs⟩) h
  intro marks hr t pid slot channel hw
  cases hm : marks pid slot with
  | false => rfl
  | true => exact absurd (hinv.2.pending marks [] hr t pid slot channel hw hm) List.not_mem_nil

end Revocation

/-! ## Runs with one receiver -/

/-- Process 0 may receive on channel 0, with a capability of its own. -/
def oneReceiver : Sys where
  ledger := [⟨0, "kernel", "created the object", RIGHTS_ALL⟩]
  table := [#v[some ⟨1, .channel 0, RIGHT_RECV, false, "kernel", "created the object"⟩, none, none,
    none, none, none, none, none]]
  chans := []
  state := fun _ => .runnable
  pc := fun _ => .user
  sentTo := fun _ => []
  takenFrom := fun _ => []
  done := []

theorem init_oneReceiver : oneReceiver.Init :=
  ⟨rfl, fun _ _ => State.noConfusion, fun _ => rfl, fun _ => rfl, fun _ => rfl, rfl⟩

/-- The receiver waits, and a sender has queued a message but not woken it yet. -/
def messageQueued : Sys :=
  (Run.exec Sys.step oneReceiver
    [.create, .recv 1 0 0, .resolve 1, .take 1, .send 2 0 7 [42]]).getD oneReceiver

theorem no_wakeup_lost_messageQueued :
    queued messageQueued.chans 0 ≠ [] ∧ messageQueued.state 1 = .blocked 0 ∧
      ∃ u, messageQueued.pc u = .sendWake 0 := by
  have hrun : Run.exec Sys.step oneReceiver
      [.create, .recv 1 0 0, .resolve 1, .take 1, .send 2 0 7 [42]] = some messageQueued := rfl
  have hne : queued messageQueued.chans 0 ≠ [] := by decide
  exact ⟨hne, rfl, (no_wakeup_lost (Run.reachable_of_exec init_oneReceiver hrun)).2 0 1 hne rfl⟩

theorem inTime_of_ne_take {s : Sys} {a : Act} (h : ∀ t, a ≠ .take t) : s.InTime a :=
  fun t _ _ _ ha => absurd ha (h t)

/-- The receiver waits on its capability. -/
def receiverWaits : Sys :=
  (Run.exec Sys.step oneReceiver [.create, .recv 0 0 0, .resolve 0, .take 0]).getD oneReceiver

/-- The capability on which the receiver waits was revoked. -/
def receiverReleased : Sys :=
  (Run.exec Sys.step receiverWaits [.revoke 1 1, .revokeWake 1, .revokeDone 1]).getD oneReceiver

theorem revoked_receivers_leave_receiverReleased :
    receiverWaits.Waits 0 0 0 0 ∧ receiverReleased.Revoked (receiverWaits.marks 1) [] ∧
      receiverReleased.Released := by
  have hcall : Run.exec Sys.step oneReceiver [.create, .recv 0 0 0, .resolve 0] =
      some ((Run.exec Sys.step oneReceiver [.create, .recv 0 0 0, .resolve 0]).getD oneReceiver) := rfl
  have hrevoke : Run.exec Sys.step receiverWaits [.revoke 1 1, .revokeWake 1, .revokeDone 1] =
      some receiverReleased := rfl
  have hstart : Run.Reachable Sys.step Sys.InTime Sys.Init oneReceiver := .start init_oneReceiver
  have hcalled := hstart.exec
    (Run.meets_of_forall (by simp [inTime_of_ne_take])) hcall
  have hwaits : Run.Reachable Sys.step Sys.InTime Sys.Init receiverWaits := by
    refine .next (a := .take 0) hcalled (fun t pid slot channel _ _ _ marks pending hr => ?_) rfl
    -- nobody has begun to revoke
    rcases hr with ⟨u, hu⟩ | ⟨hd, -⟩
    · rcases update_cases hu with ⟨-, hq⟩ | ⟨-, hu⟩
      · cases hq
      · rcases update_cases hu with ⟨-, hq⟩ | ⟨-, hu⟩
        · cases hq
        · cases hu
    · cases hd
  have hreleased := hwaits.exec (Run.meets_of_forall (by simp [inTime_of_ne_take])) hrevoke
  exact ⟨⟨rfl, rfl⟩, .inr ⟨List.mem_cons_self, rfl⟩, revoked_receivers_leave hreleased⟩

/-- The revoke marks the capability between the moment that the receiver resolves it and
the moment that it is marked `Blocked`. -/
theorem late_receiver_stuck :
    ∃ s, Run.exec Sys.step oneReceiver
        [.create, .recv 0 0 0, .resolve 0, .revoke 1 1, .revokeWake 1, .revokeDone 1, .take 0] =
          some s ∧ ¬s.Released := by
  refine ⟨_, rfl, fun h => ?_⟩
  have hfree := h (oneReceiver.marks 1) (.inr ⟨List.mem_cons_self, rfl⟩) 0 0 0 0 ⟨rfl, rfl⟩
  exact absurd hfree (by decide)

end JungeyOs.Receive
