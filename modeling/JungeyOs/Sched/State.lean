import Mathlib.Data.Nat.Notation
import Mathlib.Tactic.SplitIfs

/-!
# Scheduling states

Models of the places in `kernel/src/sched/mod.rs` where the state of a thread
changes; each is what happens to one thread while the scheduler lock is held.

Results:
* `wake_ne_blocked`: no thread waits for a token right after it was woken.
* `State.wake_eq_blocked`, `State.wakeSleeper_eq_blocked`: waking blocks nobody.
-/

namespace JungeyOs.Sched

/-- `State` (lines 60–75). -/
inductive State
  | new
  | runnable
  | sleeping (deadline : ℕ)
  | blocked (token : ℕ)
  | finished
  deriving DecidableEq, Repr

namespace State

/-- A thread that `start` comes to (lines 223–235). -/
def start : State → State
  | .new => .runnable
  | s => s

/-- A thread that `wake_all_on` comes to (lines 509–526). -/
def wake (token : ℕ) (s : State) : State := if s = .blocked token then .runnable else s

/-- A thread that `wake_sleepers_and_survey` comes to (lines 422–446). -/
def wakeSleeper (now : ℕ) : State → State
  | .sleeping deadline => if deadline ≤ now then .runnable else .sleeping deadline
  | s => s

/-- `cancel_block` (lines 487–493). -/
def cancel : State → State
  | .blocked _ => .runnable
  | s => s

/-- No thread waits for a token right after it was woken. -/
theorem wake_ne_blocked (token : ℕ) (s : State) : s.wake token ≠ .blocked token := by
  unfold wake
  split_ifs with h
  · simp
  · exact h

/-- Waking blocks nobody. -/
theorem wake_eq_blocked {token token' : ℕ} {s : State} (h : s.wake token = .blocked token') :
    s = .blocked token' := by
  unfold wake at h
  split_ifs at h
  exact h

theorem wakeSleeper_eq_blocked {now token : ℕ} {s : State}
    (h : s.wakeSleeper now = .blocked token) : s = .blocked token := by
  cases s with
  | sleeping deadline =>
    dsimp only [wakeSleeper] at h
    split_ifs at h
  | _ => exact h

end State

end JungeyOs.Sched
