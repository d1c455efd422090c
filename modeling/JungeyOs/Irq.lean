import JungeyOs.Lib.Directory
import JungeyOs.Lib.Run
import Mathlib.Data.Int.Notation
import Mathlib.Logic.Function.Basic

/-!
# Interrupts for a driver

An interrupt handler on one core and a driver process on another: `user_irq_fired` (`irq.rs`, lines
41–67), the masks of the lines (`gic.rs`, lines 208–230) and `sys_irq_wait` (`syscall.rs`, lines
252–285). The handler counts an interrupt while it holds the lock, and masks the line after that; the
driver unmasks the line when it begins to wait, and polls the count. Interrupts of other lines come
in between. `sys_irq_wait` does not block, so the wake-up of the handler finds nobody.

Results:
* `Inv.step`: what every step keeps of the count, the mask and the two program counters.
* `armed_of_settled`: the line of a waiting driver is unmasked in runs where the driver does not
  unmask it between the count and the mask of the interrupt that it has seen.
* `masked_waiting`: a run in which the handler masks the line of a waiting driver.
-/

namespace JungeyOs.Irq

/-! ## The table of lines -/

/-- `USER_IRQS` (line 33): lines with the number of times they have fired. -/
abbrev UserIrqs := List (ℕ × ℕ)

/-- `register_user` (lines 41–46). -/
def registerUser (u : UserIrqs) (intid : ℕ) : UserIrqs :=
  match Dir.lookup Prod.fst u intid with
  | none => u ++ [(intid, 0)]
  | some _ => u

/-- `sequence` (lines 49–51). -/
def sequence (u : UserIrqs) (intid : ℕ) : Option ℕ := (Dir.lookup Prod.fst u intid).map (·.2)

/-- `user_irq_fired` under the lock (lines 55–59); `none` if no driver has the line. -/
def userIrqFired (u : UserIrqs) (intid : ℕ) : Option UserIrqs :=
  (Dir.lookup Prod.fst u intid).map fun slot => Dir.put Prod.fst u intid (intid, slot.2 + 1)

section

variable {u u' : UserIrqs} {intid line : ℕ}

/-- What `sys_irq_wait` polls (line 274). -/
def fired (u : UserIrqs) (intid : ℕ) : ℕ := (sequence u intid).getD 0

theorem lookup_put_line (n : ℕ) : Dir.lookup Prod.fst (Dir.put Prod.fst u intid (intid, n)) line =
    if intid = line then some (intid, n) else Dir.lookup Prod.fst u line := by
  by_cases hne : intid = line
  · rw [if_pos hne, ← hne]
    exact Dir.lookup_put_self rfl
  · rw [if_neg hne]
    exact Dir.lookup_put_ne hne hne

theorem fired_registerUser : fired (registerUser u intid) line = fired u line := by
  unfold registerUser
  cases hx : Dir.lookup Prod.fst u intid with
  | some slot => rfl
  | none =>
    unfold fired sequence
    dsimp only
    rw [← Dir.put_of_none (e := (intid, 0)) hx, lookup_put_line]
    split_ifs with hne
    · rw [← hne, hx]
      rfl
    · rfl

theorem fired_userIrqFired (h : userIrqFired u intid = some u') :
    fired u' line = if intid = line then fired u line + 1 else fired u line := by
  obtain ⟨slot, hslot, rfl⟩ := Option.map_eq_some_iff.mp h
  unfold fired sequence
  rw [lookup_put_line]
  split_ifs with hne
  · rw [← hne, hslot]
    rfl
  · rfl

end

/-! ## The handler and the driver -/

/-- `ETIMEDOUT` (`syscall.rs`, line 38). -/
def ETIMEDOUT : ℤ := -6

/-- Where the handler stands (`dispatch`, lines 99–109). -/
inductive Handler
  | idle
  /-- an interrupt has been acknowledged -/
  | taken (intid : ℕ)
  /-- before `disable_spi` (line 64) -/
  | counted (intid : ℕ)
  /-- before the wake-up and `end_of_interrupt` -/
  | masked (intid : ℕ)

/-- The line whose interrupt is handled. -/
def Handler.intid : Handler → Option ℕ
  | .idle => none
  | .taken intid => some intid
  | .counted intid => some intid
  | .masked intid => some intid

/-- Where the driver stands in `sys_irq_wait`, with its capability resolved. -/
inductive Driver
  | returned (value : ℤ)
  /-- before `enable_spi` (line 270) -/
  | called (timeout : ℕ)
  /-- before it reads the count (line 274) -/
  | polling (deadline : ℕ)
  /-- with the count (line 276) -/
  | polled (deadline seq : ℕ)

/-- The driver is in the loop. -/
def Driver.Waits : Driver → Prop
  | .polling _ => True
  | .polled _ _ => True
  | _ => False

/-- `line` is the line of the driver, and `seen` the `irq_seen` of its process. -/
structure Sys where
  userIrqs : UserIrqs
  enabled : ℕ → Bool
  handler : Handler
  line : ℕ
  seen : ℕ
  driver : Driver

/-- The steps of `boot`, of the handler and of the driver; `now` is what `time::ticks` returns. -/
inductive Act
  | register (intid : ℕ)
  | interrupt (intid : ℕ)
  | count
  | mask
  | finish
  | call (timeout : ℕ)
  | unmask (now : ℕ)
  | read
  | compare (now : ℕ)

namespace Sys

/-- `enable_spi` (`gic.rs`, lines 208–214). -/
def enableSpi (s : Sys) (intid : ℕ) : Sys := { s with enabled := Function.update s.enabled intid true }

/-- `disable_spi` (`gic.rs`, lines 224–230). -/
def disableSpi (s : Sys) (intid : ℕ) : Sys := { s with enabled := Function.update s.enabled intid false }

def step (s : Sys) : Act → Option Sys
  | .register intid => some { s with userIrqs := registerUser s.userIrqs intid }
  | .interrupt intid =>
    match s.handler with
    | .idle => if s.enabled intid then some { s with handler := .taken intid } else none
    | _ => none
  | .count =>
    match s.handler with
    | .taken intid =>
      match userIrqFired s.userIrqs intid with
      | some userIrqs => some { s with userIrqs := userIrqs, handler := .counted intid }
      | none => some { s with handler := .idle }
    | _ => none
  | .mask =>
    match s.handler with
    | .counted intid => some { s.disableSpi intid with handler := .masked intid }
    | _ => none
  | .finish =>
    match s.handler with
    | .masked _ => some { s with handler := .idle }
    | _ => none
  | .call timeout =>
    match s.driver with
    | .returned _ => some { s with driver := .called timeout }
    | _ => none
  | .unmask now =>
    match s.driver with
    | .called timeout => some { s.enableSpi s.line with driver := .polling (now + timeout) }
    | _ => none
  | .read =>
    match s.driver with
    | .polling deadline => some { s with driver := .polled deadline (fired s.userIrqs s.line) }
    | _ => none
  | .compare now =>
    match s.driver with
    | .polled deadline seq =>
      if s.seen < seq then some { s with seen := seq, driver := .returned seq }
      else if deadline ≤ now then some { s with driver := .returned ETIMEDOUT }
      else some { s with driver := .polling deadline }
    | _ => none

/-- No interrupt has come, and the driver has not called. -/
structure Init (s : Sys) : Prop where
  handler : s.handler = .idle
  seen : s.seen = 0
  driver : ∃ value, s.driver = .returned value

/-! ## The claim -/

/-- Whenever no interrupt of the line is handled and the driver waits for the next one, the line is
unmasked. -/
def Armed (s : Sys) : Prop :=
  s.handler.intid ≠ some s.line → s.driver.Waits → s.seen = fired s.userIrqs s.line →
    s.enabled s.line = true

/-- The driver does not unmask the line after it has seen an interrupt, while the handler has counted
that and not masked the line. -/
def Settled (s : Sys) : Act → Prop
  | .unmask _ => s.handler = .counted s.line → s.seen ≠ fired s.userIrqs s.line
  | _ => True

/-! ## The invariant -/

structure Inv (s : Sys) : Prop where
  seen : s.seen ≤ fired s.userIrqs s.line
  polled : ∀ deadline seq, s.driver = .polled deadline seq → seq ≤ fired s.userIrqs s.line
  /-- the line of a waiting driver is unmasked, and will not be masked -/
  armed : s.driver.Waits → s.seen = fired s.userIrqs s.line →
    s.enabled s.line = true ∧ s.handler ≠ .counted s.line

section

variable {s s' : Sys} {a : Act}

theorem Inv.isArmed (h : Inv s) : s.Armed := fun _ hw hs => (h.armed hw hs).1

/-- An interrupt of a line is counted. -/
theorem Inv.count (h : Inv s) {intid : ℕ} {u : UserIrqs} (hu : userIrqFired s.userIrqs intid = some u) :
    Inv { s with userIrqs := u, handler := .counted intid } := by
  have hfired : fired u s.line = _ := fired_userIrqFired hu
  have hle : fired s.userIrqs s.line ≤ fired u s.line := by
    rw [hfired]
    split_ifs
    · exact Nat.le_succ _
    · exact Nat.le_refl _
  refine ⟨Nat.le_trans h.seen hle, fun d seq hd => Nat.le_trans (h.polled d seq hd) hle,
    fun hw hs => ?_⟩
  have hseen := h.seen
  have heq : s.seen = fired u s.line := hs
  rw [hfired] at heq
  by_cases hline : intid = s.line
  · -- the driver has not seen it
    rw [if_pos hline] at heq
    omega
  · rw [if_neg hline] at heq
    exact ⟨(h.armed hw heq).1, fun hc => hline (Handler.counted.inj hc)⟩

/-- The handler masks a line. -/
theorem Inv.mask (h : Inv s) {intid : ℕ} (hh : s.handler = .counted intid) :
    Inv { s.disableSpi intid with handler := .masked intid } := by
  refine ⟨h.seen, h.polled, fun hw hs => ⟨?_, nofun⟩⟩
  obtain ⟨henabled, hnot⟩ := h.armed hw hs
  have hne : s.line ≠ intid := by
    rintro rfl
    exact hnot hh
  exact (Function.update_of_ne hne ..).trans henabled

/-- The driver unmasks its line. -/
theorem Inv.unmask (h : Inv s) {now deadline : ℕ} (hok : s.Settled (.unmask now)) :
    Inv { s.enableSpi s.line with driver := .polling deadline } :=
  ⟨h.seen, nofun, fun _ hs => ⟨Function.update_self .., fun hc => hok hc hs⟩⟩

/-- A handler that does not come to mask the line. -/
theorem Inv.handle (h : Inv s) {handler : Handler} (hh : ∀ intid, handler ≠ .counted intid) :
    Inv { s with handler := handler } :=
  ⟨h.seen, h.polled, fun hw hs => ⟨(h.armed hw hs).1, hh s.line⟩⟩

theorem Inv.step (h : Inv s) (hok : s.Settled a) (hs : s.step a = some s') : Inv s' := by
  unfold Sys.step at hs
  cases a with
  | register intid =>
    cases hs
    refine ⟨?_, ?_, ?_⟩
    all_goals
      dsimp only
      rw [fired_registerUser]
    · exact h.seen
    · exact h.polled
    · exact h.armed
  | interrupt intid =>
    dsimp only at hs
    cases hh : s.handler with
    | idle =>
      rw [hh] at hs
      dsimp only at hs
      split_ifs at hs
      cases hs
      exact h.handle nofun
    | _ =>
      rw [hh] at hs
      cases hs
  | count =>
    dsimp only at hs
    cases hh : s.handler with
    | taken intid =>
      rw [hh] at hs
      dsimp only at hs
      cases hu : userIrqFired s.userIrqs intid with
      | some u =>
        rw [hu] at hs
        cases hs
        exact h.count hu
      | none =>
        rw [hu] at hs
        cases hs
        exact h.handle nofun
    | _ =>
      rw [hh] at hs
      cases hs
  | mask =>
    dsimp only at hs
    cases hh : s.handler with
    | counted intid =>
      rw [hh] at hs
      cases hs
      exact h.mask hh
    | _ =>
      rw [hh] at hs
      cases hs
  | finish =>
    dsimp only at hs
    cases hh : s.handler with
    | masked intid =>
      rw [hh] at hs
      cases hs
      exact h.handle nofun
    | _ =>
      rw [hh] at hs
      cases hs
  | call timeout =>
    dsimp only at hs
    cases hd : s.driver with
    | returned value =>
      rw [hd] at hs
      cases hs
      exact ⟨h.seen, nofun, False.elim⟩
    | _ =>
      rw [hd] at hs
      cases hs
  | unmask now =>
    dsimp only at hs
    cases hd : s.driver with
    | called timeout =>
      rw [hd] at hs
      cases hs
      exact h.unmask hok
    | _ =>
      rw [hd] at hs
      cases hs
  | read =>
    dsimp only at hs
    cases hd : s.driver with
    | polling deadline =>
      rw [hd] at hs
      cases hs
      refine ⟨h.seen, fun d seq hseq => ?_, fun _ hs => h.armed (by rw [hd]; trivial) hs⟩
      cases hseq
      exact Nat.le_refl _
    | _ =>
      rw [hd] at hs
      cases hs
  | compare now =>
    dsimp only at hs
    cases hd : s.driver with
    | polled deadline seq =>
      rw [hd] at hs
      dsimp only at hs
      split_ifs at hs
      · cases hs
        exact ⟨h.polled deadline seq hd, nofun, False.elim⟩
      · cases hs
        exact ⟨h.seen, nofun, False.elim⟩
      · cases hs
        exact ⟨h.seen, nofun, fun _ hs => h.armed (by rw [hd]; trivial) hs⟩
    | _ =>
      rw [hd] at hs
      cases hs

theorem Init.inv (h : s.Init) : Inv s := by
  obtain ⟨value, hvalue⟩ := h.driver
  refine ⟨h.seen ▸ Nat.zero_le _, ?_, ?_⟩ <;>
  · rw [hvalue]
    exact nofun

/-- In a run in which the driver does not unmask the line between the count and the mask of an
interrupt that it has seen, the line is unmasked whenever the driver waits for the next interrupt. -/
theorem armed_of_settled (h : Run.Reachable Sys.step Settled Init s) : s.Armed :=
  (h.invariant Inv (fun _ h => h.inv) fun _ _ _ h hok hs => h.step hok hs).isArmed

end

/-- A driver of line 40 at boot. -/
def booted : Sys :=
  { userIrqs := [], enabled := fun _ => false, handler := .idle, line := 40, seen := 0
    driver := .returned 0 }

theorem init_booted : booted.Init := ⟨rfl, rfl, 0, rfl⟩

/-- The driver takes an interrupt, and waits for another. -/
def demoWaits : List Act :=
  [.register 40, .call 50, .unmask 0, .interrupt 40, .count, .mask, .finish, .read, .compare 0,
    .call 50, .unmask 1]

theorem armed_of_settled_demoWaits :
    ∃ s, Run.exec Sys.step booted demoWaits = some s ∧ s.seen = 1 ∧ s.Armed := by
  have hstart : Run.Reachable Sys.step Settled Init booted := .start init_booted
  have hmeets : Run.Meets Sys.step Settled booted demoWaits :=
    .cons rfl trivial <| .cons rfl trivial <| .cons rfl nofun <| .cons rfl trivial <|
      .cons rfl trivial <| .cons rfl trivial <| .cons rfl trivial <| .cons rfl trivial <|
      .cons rfl trivial <| .cons rfl trivial <| .cons rfl nofun trivial
  exact ⟨_, rfl, rfl, armed_of_settled (hstart.exec hmeets rfl)⟩

/-- The driver sees the interrupt as soon as it is counted, and waits for another before the handler
masks the line. -/
def demoOvertakes : List Act :=
  [.register 40, .call 50, .unmask 0, .interrupt 40, .count, .read, .compare 0, .call 50, .unmask 0,
    .mask, .finish]

/-- The handler masks the line of a waiting driver. -/
theorem masked_waiting : ∃ s, Run.exec Sys.step booted demoOvertakes = some s ∧ ¬s.Armed :=
  ⟨_, rfl, fun h => absurd (h nofun trivial rfl) nofun⟩

end Sys

end JungeyOs.Irq
