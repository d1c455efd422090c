import JungeyOs.Inputdrv.Queue

/-!
# The input driver returns every event

What the driver of `Inputdrv.Queue` does over whole runs. It takes six steps for an event, and any
number of steps of the device may come in between.

Results:
* `returned_of_runs`: the driver returns what was posted after six steps of its own for each event.
* `input_delivers`: where the events and the descriptors are in every run, and which messages are
  sent.
* `repeated_report`: a report of the value that is already known is followed by a message as well.
-/

namespace JungeyOs.Inputdrv

open Run Display

section

variable {s s' : Sys} {irq : ℤ} {ok : Bool}

/-! ## The progress of the driver -/

/-- How many steps ago the driver began with the event that it is at. -/
def Pc.steps : Pc → ℕ
  | .handling _ | .waiting | .stopped => 0
  | .polling => 1
  | .found => 2
  | .reading _ => 3
  | .recycling _ _ => 4
  | .offering _ _ => 5

def Act.isRun : Act → Bool
  | .run _ _ => true
  | _ => false

namespace Sys

/-- What the driver has done, in steps. -/
def progress (s : Sys) : ℕ := 6 * s.returned.length + s.pc.steps

/-- Unless it stops, the driver makes progress with every step that does not find the used ring
empty. -/
theorem progress_run (hs : s.run irq ok = some s') :
    s'.pc = .stopped ∨ (s.pc = .polling ∧ s.dma.usedIdx = s.input.lastUsed) ∨
      s'.progress = s.progress + 1 := by
  rw [Sys.run] at hs
  cases hpc : s.pc with
  | polling =>
    simp only [hpc] at hs
    split_ifs at hs with hidx <;> obtain rfl := Option.some.inj hs
    · exact .inr (.inl ⟨rfl, hidx⟩)
    · exact .inr (.inr (by simp [progress, hpc, Pc.steps]))
  | found | reading | recycling =>
    simp only [hpc] at hs
    obtain rfl := Option.some.inj hs
    exact .inr (.inr (by simp [progress, hpc, Pc.steps, place]))
  | offering =>
    simp only [hpc] at hs
    obtain rfl := Option.some.inj hs
    exact .inr (.inr (by simp [progress, hpc, Pc.steps]; omega))
  | handling ev =>
    simp only [hpc] at hs
    cases hh : handle s.input.xAxis s.input.yAxis s.gesture ev ok with
    | some g =>
      rw [hh] at hs
      obtain rfl := Option.some.inj hs
      exact .inr (.inr (by simp [progress, hpc, Pc.steps]))
    | none =>
      rw [hh] at hs
      obtain rfl := Option.some.inj hs
      exact .inl rfl
  | waiting =>
    simp only [hpc] at hs
    split_ifs at hs <;> obtain rfl := Option.some.inj hs
    · exact .inr (.inr (by simp [progress, hpc, Pc.steps]))
    · exact .inr (.inr (by simp [progress, hpc, Pc.steps]))
    · exact .inl rfl
  | stopped =>
    simp only [hpc] at hs
    cases hs

/-- What was posted and what was returned only grows, and a driver that has stopped stays so. -/
theorem grows_run (hs : s.run irq ok = some s') :
    s'.posted = s.posted ∧ s.returned <+: s'.returned ∧ s.pc ≠ .stopped := by
  rw [Sys.run] at hs
  cases hpc : s.pc with
  | handling ev =>
    simp only [hpc] at hs
    split at hs <;> obtain rfl := Option.some.inj hs <;> exact ⟨rfl, List.prefix_rfl, by simp⟩
  | polling | waiting =>
    simp only [hpc] at hs
    split_ifs at hs <;> obtain rfl := Option.some.inj hs <;> exact ⟨rfl, List.prefix_rfl, by simp⟩
  | stopped =>
    simp only [hpc] at hs
    cases hs
  | offering id ev =>
    simp only [hpc] at hs
    obtain rfl := Option.some.inj hs
    exact ⟨rfl, List.prefix_append .., by simp⟩
  | found | reading | recycling =>
    simp only [hpc] at hs
    obtain rfl := Option.some.inj hs
    exact ⟨rfl, List.prefix_rfl, by simp⟩

/-- The device touches neither what was returned nor where the driver stands. -/
theorem grows_device {a : Act} (ha : a.isRun = false) (hs : s.step a = some s') :
    s.posted <+: s'.posted ∧ s'.returned = s.returned ∧ s'.pc = s.pc := by
  cases a with
  | run => cases ha
  | take =>
    rw [step] at hs
    split_ifs at hs
    obtain rfl := Option.some.inj hs
    exact ⟨List.prefix_rfl, rfl, rfl⟩
  | write =>
    rw [step] at hs
    split_ifs at hs
    obtain rfl := Option.some.inj hs
    exact ⟨List.prefix_rfl, rfl, rfl⟩
  | publish =>
    rw [step] at hs
    split at hs
    · cases hs
    · obtain rfl := Option.some.inj hs
      exact ⟨List.prefix_append .., rfl, rfl⟩

/-- The driver has stopped, or has returned `n` events. -/
def Done (n : ℕ) (s : Sys) : Prop := s.pc = .stopped ∨ n ≤ s.returned.length

theorem Done.step {n : ℕ} {a : Act} (h : Done n s) (hs : s.step a = some s') :
    Done n s' := by
  cases a with
  | run irq ok =>
    obtain ⟨-, hreturned, hpc⟩ := grows_run hs
    exact .inr ((h.resolve_left hpc).trans hreturned.length_le)
  | take | write | publish =>
    obtain ⟨-, hreturned, hpc⟩ := grows_device rfl hs
    rw [Done, hpc, hreturned]
    exact h

theorem posted_step {a : Act} (hs : s.step a = some s') : s.posted <+: s'.posted := by
  cases a with
  | run irq ok => rw [(grows_run hs).1]
  | take | write | publish => exact (grows_device rfl hs).1

/-- As long as there is something to return, a step makes the progress that it stands for. -/
theorem progress_step {n : ℕ} {a : Act} (h : s.Inv) (hn : n ≤ s.posted.length) (hdone : ¬Done n s)
    (hs : s.step a = some s') :
    Done n s' ∨ s.progress + [a].countP Act.isRun ≤ s'.progress := by
  cases a with
  | run irq ok =>
    rcases progress_run hs with hstop | ⟨hpc, hidx⟩ | hnext
    · exact .inl (.inl hstop)
    · -- an empty used ring means that everything is returned
      have hevents := h.events
      rw [hpc, completed_eq_nil_iff.mpr hidx.symm] at hevents
      have hlength := congrArg List.length hevents
      simp only [Pc.inFlight, List.map_nil, List.append_nil] at hlength
      exact absurd (.inr (by omega)) hdone
    · exact .inr (by rw [hnext]; rfl)
  | take | write | publish =>
    obtain ⟨-, hreturned, hpc⟩ := grows_device rfl hs
    exact .inr (by rw [progress, progress, hreturned, hpc]; rfl)

theorem done_exec {n : ℕ} (as : List Act) (h : Done n s) (hs : exec step s as = some s') :
    Done n s' := by
  induction as generalizing s with
  | nil =>
    obtain rfl := Option.some.inj hs
    exact h
  | cons a as ih =>
    obtain ⟨t, ht, hrest⟩ := Option.bind_eq_some_iff.mp hs
    exact ih (h.step ht) hrest

theorem progress_exec {n : ℕ} (as : List Act) (h : s.Inv) (hn : n ≤ s.posted.length)
    (hs : exec step s as = some s') :
    Done n s' ∨ s.progress + as.countP Act.isRun ≤ s'.progress := by
  induction as generalizing s with
  | nil =>
    obtain rfl := Option.some.inj hs
    exact .inr le_rfl
  | cons a as ih =>
    obtain ⟨t, ht, hrest⟩ := Option.bind_eq_some_iff.mp hs
    by_cases hdone : Done n t
    · exact .inl (done_exec as hdone hrest)
    · have hstep := (progress_step h hn (fun hd => hdone (hd.step ht)) ht).resolve_left hdone
      refine (ih (inv_step h ht) (hn.trans (posted_step ht).length_le) hrest).imp_right fun hnext => ?_
      rw [← List.singleton_append, List.countP_append]
      omega

theorem posted_exec (as : List Act) (hs : exec step s as = some s') : s.posted <+: s'.posted := by
  induction as generalizing s with
  | nil =>
    obtain rfl := Option.some.inj hs
    exact List.prefix_rfl
  | cons a as ih =>
    obtain ⟨t, ht, hrest⟩ := Option.bind_eq_some_iff.mp hs
    exact (posted_step ht).trans (ih hrest)

/-- After six steps of the driver for each event it has returned what was posted, unless it has
stopped. -/
theorem returned_of_runs (h : s.Inv) {as : List Act} (hs : exec step s as = some s')
    (hi : s'.Inv) (hruns : 6 * (s.posted.length - s.returned.length) ≤ as.countP Act.isRun) :
    s'.pc = .stopped ∨ s.posted <+: s'.returned := by
  have hdone : Done s.posted.length s' := by
    refine (progress_exec as h le_rfl hs).elim id fun hprogress => .inr ?_
    have hsteps : s'.pc.steps ≤ 5 := by cases s'.pc <;> simp [Pc.steps]
    rw [progress, progress] at hprogress
    omega
  refine hdone.imp_right fun hlength => ?_
  have hreturned : s'.returned <+: s'.posted := by
    rw [hi.events, List.append_assoc]
    exact List.prefix_append ..
  exact List.prefix_of_prefix_length_le (posted_exec as hs) hreturned hlength

/-- The driver can go on unless it has stopped. -/
theorem run_enabled (h : s.pc ≠ .stopped) (irq : ℤ) (ok : Bool) : (s.run irq ok).isSome := by
  rw [Sys.run]
  cases hpc : s.pc with
  | stopped => exact absurd hpc h
  | handling ev => dsimp only; split <;> rfl
  | polling | waiting => dsimp only; split_ifs <;> rfl
  | _ => rfl

end Sys

/-- In every run: every event that was posted is returned, on its way, or in the buffer of an entry
of the used ring, in the order in which they were posted; the driver finds the used ring empty
exactly when it has returned everything, and unless it stops it returns what was posted after six
steps for each event. Every descriptor is in one place: offered, with the device, in the used
ring, or in the hands of the driver. The messages are the states at each `EV_SYN` that follows a
report since the `EV_SYN` before it, and the server reads these states out of them. -/
theorem input_delivers {s : Sys} (h : Reachable Sys.step always Sys.Init s) :
    s.posted = s.returned ++ s.pc.inFlight ++ s.completed.map s.dma.bufs ∧
    (s.pc = .polling → (s.dma.usedIdx = s.input.lastUsed ↔ s.returned = s.posted)) ∧
    (∀ as s', exec Sys.step s as = some s' →
      6 * (s.posted.length - s.returned.length) ≤ as.countP Act.isRun →
      s'.pc = .stopped ∨ s.posted <+: s'.returned) ∧
    (s.pc ≠ .stopped → ∀ irq ok, (s.step (.run irq ok)).isSome) ∧
    (s.offered ++ s.held ++ s.written ++ s.completed ++ s.pc.inHand).Perm
      (List.range QUEUE_SIZE) ∧
    (s.returned = s.handled ∨ ∃ ev, s.returned = s.handled ++ [ev] ∧
      (s.pc = .handling ev ∨ s.pc = .stopped)) ∧
    s.gesture.sent.filter isInput =
      (expected s.input.xAxis s.input.yAxis s.handled).map message ∧
    ∀ st ∈ expected s.input.xAxis s.input.yAxis s.handled,
      be16 ((message st).drop 1) = st.x ∧ be16 ((message st).drop 3) = st.y ∧
        ((message st).getD 5 0 != 0) = st.down := by
  have hinv := Sys.inv_reachable h
  refine ⟨hinv.events, fun hpc => ?_, fun as s' hs hruns => ?_, Sys.run_enabled, hinv.partition, ?_,
    hinv.follows.sent, fun st hst => ?_⟩
  · have hevents := hinv.events
    simp only [hpc, Pc.inFlight, List.append_nil] at hevents
    rw [eq_comm, ← Sys.completed_eq_nil_iff, hevents, List.self_eq_append_right, List.map_eq_nil_iff]
  · have hnext := h.exec (meets_always Sys.step s as) hs
    exact Sys.returned_of_runs hinv hs (Sys.inv_reachable hnext) hruns
  · have hhandled := hinv.handled
    rw [Sys.Handled] at hhandled
    cases hpc : s.pc with
    | handling ev =>
      simp only [hpc] at hhandled
      exact .inr ⟨ev, hhandled, .inl rfl⟩
    | stopped =>
      simp only [hpc] at hhandled
      rcases hhandled with hall | ⟨ev, hev⟩
      · exact .inl hall
      · exact .inr ⟨ev, hev, .inr rfl⟩
    | _ =>
      simp only [hpc] at hhandled
      exact .inl hhandled
  · obtain ⟨n, rfl⟩ := mem_expected hst
    exact message_read (stateAfter_lt.1.trans (by decide)) (stateAfter_lt.2.trans (by decide))

end

/-- The device posts one event in a descriptor that it has just taken, and the driver goes through
the six steps from there to the next event. -/
def deliver (d : ℕ) (ev : Event) : List Act :=
  [.take, .write d ev, .publish] ++ List.replicate 6 (.run 0 true)

/-- The finger appears at the right edge, and the group is ended: both events are returned, and the
position is sent. -/
theorem input_delivers_edge : ∃ s, exec Sys.step (Sys.attach ⟨0, 32767⟩ ⟨0, 32767⟩)
      (deliver 0 ⟨EV_ABS, ABS_X, 32767⟩ ++ deliver 1 ⟨EV_SYN, 0, 0⟩) = some s ∧
    s.posted.length = 2 ∧ s.returned = s.posted ∧
    s.gesture.sent.filter isInput = [message ⟨479, 0, false⟩] ∧
    (s.offered ++ s.held ++ s.written ++ s.completed ++ s.pc.inHand).Perm
      (List.range QUEUE_SIZE) := by
  have hrun : (exec Sys.step (Sys.attach ⟨0, 32767⟩ ⟨0, 32767⟩)
      (deliver 0 ⟨EV_ABS, ABS_X, 32767⟩ ++ deliver 1 ⟨EV_SYN, 0, 0⟩)).map
        (fun s => (s.pc, s.dma.usedIdx, s.input.lastUsed, s.posted.length)) =
      some (.polling, 2, 2, 2) ∧
      (exec Sys.step (Sys.attach ⟨0, 32767⟩ ⟨0, 32767⟩)
        (deliver 0 ⟨EV_ABS, ABS_X, 32767⟩ ++ deliver 1 ⟨EV_SYN, 0, 0⟩)).map
        (fun s => expected s.input.xAxis s.input.yAxis s.handled) = some [⟨479, 0, false⟩] := by
    set_option maxRecDepth 20000 in decide
  obtain ⟨s, hs, hfields⟩ := Option.map_eq_some_iff.mp hrun.1
  obtain ⟨hpc, hused, hlast, hposted⟩ : s.pc = .polling ∧ s.dma.usedIdx = 2 ∧
      s.input.lastUsed = 2 ∧ s.posted.length = 2 := by
    simpa only [Prod.mk.injEq] using hfields
  have hexpected := hrun.2
  rw [hs, Option.map_some, Option.some_inj] at hexpected
  obtain ⟨-, hempty, -, -, hpartition, -, hsent, -⟩ :=
    input_delivers (reachable_of_exec ⟨_, _, rfl⟩ hs)
  refine ⟨s, hs, hposted, (hempty hpc).mp (hused.trans hlast.symm), ?_, hpartition⟩
  rw [hsent, hexpected]
  rfl

/-! ## A report of what is known -/

/-- The first position that is reported is the one at which the driver begins: the state never
changes, and a message is sent. -/
theorem repeated_report : ∃ s, exec Sys.step (Sys.attach ⟨0, 32767⟩ ⟨0, 32767⟩)
      (deliver 0 ⟨EV_ABS, ABS_X, 0⟩ ++ deliver 1 ⟨EV_SYN, 0, 0⟩) = some s ∧
    s.handled = [⟨EV_ABS, ABS_X, 0⟩, ⟨EV_SYN, 0, 0⟩] ∧
    (∀ n ≤ 2, stateAfter s.input.xAxis s.input.yAxis (s.handled.take n) = ⟨0, 0, false⟩) ∧
    s.gesture.sent = [message ⟨0, 0, false⟩] := by
  have hrun : (exec Sys.step (Sys.attach ⟨0, 32767⟩ ⟨0, 32767⟩)
      (deliver 0 ⟨EV_ABS, ABS_X, 0⟩ ++ deliver 1 ⟨EV_SYN, 0, 0⟩)).map
        (fun s => (s.handled, s.input.xAxis, s.input.yAxis, s.gesture.sent)) =
      some ([⟨EV_ABS, ABS_X, 0⟩, ⟨EV_SYN, 0, 0⟩], ⟨0, 32767⟩, ⟨0, 32767⟩,
        [message ⟨0, 0, false⟩]) := by
    set_option maxRecDepth 20000 in decide
  obtain ⟨s, hs, hfields⟩ := Option.map_eq_some_iff.mp hrun
  simp only [Prod.mk.injEq] at hfields
  obtain ⟨hhandled, hx, hy, hsent⟩ := hfields
  refine ⟨s, hs, hhandled, ?_, hsent⟩
  rw [hhandled, hx, hy]
  set_option maxRecDepth 20000 in decide

end JungeyOs.Inputdrv
