import JungeyOs.Sched.State
import Mathlib.Data.List.Basic

/-!
# Channels

Models of `kernel/src/ipc.rs`: queues of messages, as they are while the channel
lock is held. `recv_or_prepare` marks the caller `Blocked` before it lets go of the
lock, so it changes the state of the calling thread too.

Results:
* `send_ok`, `moved_tryRecv`, `recvOrPrepare_cases`: everything a call can do.
-/

namespace JungeyOs.Ipc

open Sched (State)

/-- `Message` (lines 16–19). -/
structure Message where
  source : ℕ
  bytes : List UInt8
  deriving DecidableEq, Repr

/-- `Channel` (lines 21–25). -/
structure Channel where
  queue : List Message
  sent : ℕ
  received : ℕ

/-- `CHANNELS` (line 27). -/
abbrev Channels := List Channel

/-- `create` (lines 30–34). -/
def create (chans : Channels) : Channels := chans ++ [⟨[], 0, 0⟩]

/-- `send` up to its wake-up (lines 36–41). -/
def send (chans : Channels) (channel source : ℕ) (bytes : List UInt8) : Except String Channels :=
  match chans[channel]? with
  | none => .error "no such channel"
  | some ch => .ok (chans.set channel
      { ch with queue := ch.queue ++ [⟨source, bytes⟩], sent := ch.sent + 1 })

/-- `try_recv` (lines 70–78). -/
def tryRecv (chans : Channels) (channel : ℕ) : Channels × Option Message :=
  match chans[channel]? with
  | none => (chans, none)
  | some ch =>
    match ch.queue with
    | [] => (chans, none)
    | m :: rest =>
      (chans.set channel { ch with queue := rest, received := ch.received + 1 }, some m)

/-- `recv_or_prepare` (lines 59–68): the channels and the state of the calling
thread after it, and what it returns. -/
def recvOrPrepare (chans : Channels) (state : State) (channel token : ℕ) :
    Channels × State × Option Message :=
  match chans[channel]? with
  | none => (chans, state, none)
  | some ch =>
    match ch.queue with
    | m :: rest =>
      (chans.set channel { ch with queue := rest, received := ch.received + 1 }, state, some m)
    | [] => (chans, .blocked token, none)

/-- The queue of a channel; empty for a channel that does not exist. -/
def queued (chans : Channels) (channel : ℕ) : List Message :=
  (chans[channel]?.map Channel.queue).getD []

/-- The counters of a channel. -/
def counters (chans : Channels) (channel : ℕ) : ℕ × ℕ :=
  (chans[channel]?.map fun ch => (ch.sent, ch.received)).getD (0, 0)

section

variable {chans chans' : Channels} {channel token : ℕ} {state state' : State}

theorem queued_create (x : ℕ) : queued (create chans) x = queued chans x := by
  unfold queued create
  rcases Nat.lt_trichotomy x chans.length with h | rfl | h
  · rw [List.getElem?_append_left h]
  · rw [List.getElem?_concat_length, List.getElem?_eq_none (Nat.le_refl _)]
    rfl
  · rw [List.getElem?_eq_none (by simp; omega), List.getElem?_eq_none (by omega)]

theorem counters_create (x : ℕ) : counters (create chans) x = counters chans x := by
  unfold counters create
  rcases Nat.lt_trichotomy x chans.length with h | rfl | h
  · rw [List.getElem?_append_left h]
  · rw [List.getElem?_concat_length, List.getElem?_eq_none (Nat.le_refl _)]
    rfl
  · rw [List.getElem?_eq_none (by simp; omega), List.getElem?_eq_none (by omega)]

/-- What replacing a channel changes. -/
theorem queued_set {ch ch' : Channel} (h : chans[channel]? = some ch) (x : ℕ) :
    queued (chans.set channel ch') x = if x = channel then ch'.queue else queued chans x := by
  obtain ⟨hlt, -⟩ := List.getElem?_eq_some_iff.mp h
  unfold queued
  split
  · next hx => subst hx; rw [List.getElem?_set_self hlt]; rfl
  · next hx => rw [List.getElem?_set_ne (Ne.symm hx)]

theorem counters_set {ch ch' : Channel} (h : chans[channel]? = some ch) (x : ℕ) :
    counters (chans.set channel ch') x =
      if x = channel then (ch'.sent, ch'.received) else counters chans x := by
  obtain ⟨hlt, -⟩ := List.getElem?_eq_some_iff.mp h
  unfold counters
  split
  · next hx => subst hx; rw [List.getElem?_set_self hlt]; rfl
  · next hx => rw [List.getElem?_set_ne (Ne.symm hx)]

/-- `chans'` is `chans` after `added` was queued on a channel and `taken` was taken
from it. -/
structure Moved (chans chans' : Channels) (channel : ℕ) (added taken : List Message) : Prop where
  queue : taken ++ queued chans' channel = queued chans channel ++ added
  counters : counters chans' channel =
    ((counters chans channel).1 + added.length, (counters chans channel).2 + taken.length)
  others : ∀ x, x ≠ channel → queued chans' x = queued chans x ∧ Ipc.counters chans' x =
    Ipc.counters chans x

theorem Moved.refl (chans : Channels) (channel : ℕ) : Moved chans chans channel [] [] :=
  ⟨(List.append_nil _).symm, rfl, fun _ _ => ⟨rfl, rfl⟩⟩

/-- Everything `send` can do under the lock. -/
theorem send_ok {source : ℕ} {bytes : List UInt8}
    (h : send chans channel source bytes = .ok chans') :
    Moved chans chans' channel [⟨source, bytes⟩] [] := by
  unfold send at h
  cases hc : chans[channel]? with
  | none => rw [hc] at h; cases h
  | some ch =>
    rw [hc] at h
    cases h
    have hq : queued chans channel = ch.queue := by rw [queued, hc]; rfl
    have hn : counters chans channel = (ch.sent, ch.received) := by rw [counters, hc]; rfl
    refine ⟨?_, ?_, fun x hx => ?_⟩
    · rw [queued_set hc, if_pos rfl, hq, List.nil_append]
    · rw [counters_set hc, if_pos rfl, hn]
      rfl
    · rw [queued_set hc, counters_set hc, if_neg hx, if_neg hx]
      exact ⟨rfl, rfl⟩

/-- A message is taken from the front of a queue. -/
theorem moved_take {ch : Channel} {m : Message} {rest : List Message}
    (hc : chans[channel]? = some ch) (hm : ch.queue = m :: rest) :
    Moved chans (chans.set channel { ch with queue := rest, received := ch.received + 1 }) channel
      [] [m] := by
  have hq : queued chans channel = ch.queue := by rw [queued, hc]; rfl
  have hn : counters chans channel = (ch.sent, ch.received) := by rw [counters, hc]; rfl
  refine ⟨?_, ?_, fun x hx => ?_⟩
  · rw [queued_set hc, if_pos rfl, hq, hm, List.append_nil]
    rfl
  · rw [counters_set hc, if_pos rfl, hn]
    rfl
  · rw [queued_set hc, counters_set hc, if_neg hx, if_neg hx]
    exact ⟨rfl, rfl⟩

theorem moved_tryRecv {r : Option Message} (h : tryRecv chans channel = (chans', r)) :
    Moved chans chans' channel [] r.toList := by
  unfold tryRecv at h
  cases hc : chans[channel]? with
  | none => rw [hc] at h; cases h; exact .refl _ _
  | some ch =>
    rw [hc] at h
    dsimp only at h
    cases hm : ch.queue with
    | nil => rw [hm] at h; cases h; exact .refl _ _
    | cons m rest => rw [hm] at h; cases h; exact moved_take hc hm

/-- Taking messages leaves no queue with one that was empty. -/
theorem Moved.ne_nil {taken : List Message} (hm : Moved chans chans' channel [] taken) {x : ℕ}
    (h : queued chans' x ≠ []) : queued chans x ≠ [] := by
  by_cases hx : x = channel
  · subst hx
    intro hnil
    have hq := hm.queue
    rw [hnil, List.append_nil] at hq
    exact h (List.append_eq_nil_iff.mp hq).2
  · rwa [(hm.others x hx).1] at h

/-- `recv_or_prepare` takes a message; or it finds none, and the caller is marked
`Blocked` with the queue still empty; or there is no such channel. -/
theorem recvOrPrepare_cases {r : Option Message}
    (h : recvOrPrepare chans state channel token = (chans', state', r)) :
    (∃ m, r = some m ∧ state' = state ∧ Moved chans chans' channel [] [m]) ∨
      r = none ∧ chans' = chans ∧
        (state' = state ∨ state' = .blocked token ∧ queued chans channel = []) := by
  unfold recvOrPrepare at h
  cases hc : chans[channel]? with
  | none => rw [hc] at h; cases h; exact .inr ⟨rfl, rfl, .inl rfl⟩
  | some ch =>
    rw [hc] at h
    dsimp only at h
    cases hm : ch.queue with
    | nil =>
      rw [hm] at h
      cases h
      have hq : queued chans channel = ch.queue := by rw [queued, hc]; rfl
      exact .inr ⟨rfl, rfl, .inr ⟨rfl, hq.trans hm⟩⟩
    | cons m rest => rw [hm] at h; cases h; exact .inl ⟨m, rfl, rfl, moved_take hc hm⟩

end

end JungeyOs.Ipc
