import JungeyOs.Display.Server

/-!
# From input events to gestures

Model of what `run` makes of the events (`user/src/inputdrv.rs`, lines 347–392) and of
`Axis::to_screen` (lines 121–125). The device reports one field per event and ends a group with
`EV_SYN`; the driver forwards where the finger is and whether it is down. The build has no overflow
checks, so the subtractions of `to_screen` wrap; `sent` and `events` only appear in a message to
the console and are left out.

Results:
* `toScreen_lt`: a position is on the screen, whatever the axis and the value.
* `message_read`: the display server reads out of a message what the driver put into it.
* `handle_follows`: the local variables of `run` and what it has sent follow from the events.
-/

namespace JungeyOs.Inputdrv

open Display

def EV_SYN : UInt16 := 0x00
def EV_KEY : UInt16 := 0x01
def EV_ABS : UInt16 := 0x03
def ABS_X : UInt16 := 0x00
def ABS_Y : UInt16 := 0x01
def BTN_LEFT : UInt16 := 0x110
def BTN_TOUCH : UInt16 := 0x14a

/-- An event as it stands in its buffer. -/
structure Event where
  kind : UInt16
  code : UInt16
  value : UInt32
deriving DecidableEq, Repr

structure Axis where
  min : Int32
  max : Int32
deriving DecidableEq, Repr

namespace Axis

/-- The `span` of `to_screen`. -/
def span (a : Axis) : Int32 := if a.max - a.min < 1 then 1 else a.max - a.min

/-- `clamp(0, span)`. -/
def clamp (a : Axis) (v : Int32) : Int32 := if v < 0 then 0 else if a.span < v then a.span else v

/-- `Axis::to_screen` (lines 121–125). -/
def toScreen (a : Axis) (v : Int32) (extent : ℕ) : ℕ :=
  ((a.clamp (v - a.min)).toInt * (extent - 1) / a.span.toInt).toNat

theorem span_pos (a : Axis) : 0 < a.span.toInt := by
  rw [span]
  split_ifs with h
  · decide
  · rw [Int32.lt_iff_toInt_lt] at h
    have hone : (1 : Int32).toInt = 1 := by decide
    omega

theorem clamp_bounds (a : Axis) (v : Int32) :
    0 ≤ (a.clamp v).toInt ∧ (a.clamp v).toInt ≤ a.span.toInt := by
  have hspan := a.span_pos
  have hzero : (0 : Int32).toInt = 0 := by decide
  rw [clamp]
  split_ifs with hneg hbig <;> simp only [Int32.lt_iff_toInt_lt] at * <;> omega

theorem toScreen_lt (a : Axis) (v : Int32) {extent : ℕ} (h : 0 < extent) :
    a.toScreen v extent < extent := by
  obtain ⟨hlow, hhigh⟩ := a.clamp_bounds (v - a.min)
  have hle : (a.clamp (v - a.min)).toInt * (extent - 1) ≤ a.span.toInt * (extent - 1) :=
    Int.mul_le_mul_of_nonneg_right hhigh (by omega)
  have hdiv := Int.ediv_le_ediv a.span_pos hle
  rw [Int.mul_ediv_cancel_left _ a.span_pos.ne'] at hdiv
  rw [toScreen]
  omega

end Axis

/-- Where the finger is, and whether it is down. -/
structure State where
  x : ℕ
  y : ℕ
  down : Bool
deriving DecidableEq, Repr

/-- What is sent for a state (lines 367–374). -/
def message (s : State) : List UInt8 :=
  [OP_INPUT, UInt8.ofNat (s.x >>> 8), UInt8.ofNat s.x, UInt8.ofNat (s.y >>> 8), UInt8.ofNat s.y,
    s.down.toUInt8]

/-- The server reads the state out of its message (`gpudrv.rs`, lines 651–653). -/
theorem message_read {s : State} (hx : s.x < 2 ^ 16) (hy : s.y < 2 ^ 16) :
    be16 ((message s).drop 1) = s.x ∧ be16 ((message s).drop 3) = s.y ∧
      ((message s).getD 5 0 != 0) = s.down := by
  have split {v : ℕ} (hv : v < 2 ^ 16) :
      (UInt8.ofNat (v >>> 8)).toNat <<< 8 ||| (UInt8.ofNat v).toNat = v := by
    rw [← Nat.shiftLeft_add_eq_or_of_lt (UInt8.toNat_lt _)]
    simp only [UInt8.toNat_ofNat', Nat.shiftLeft_eq, Nat.shiftRight_eq_div_pow]
    omega
  refine ⟨split hx, split hy, ?_⟩
  have hbool (b : Bool) : (b.toUInt8 != 0) = b := by cases b <;> rfl
  exact hbool s.down

/-- `m` is one of the messages that `message` makes. -/
def isInput (m : List UInt8) : Bool := m.head? = some OP_INPUT

/-- The local variables of `run`, and what it has sent. -/
structure Gesture where
  state : State
  dirty : Bool
  sent : List (List UInt8)

/-- The variables before the first event (lines 347–349). -/
def Gesture.start : Gesture := { state := ⟨0, 0, false⟩, dirty := false, sent := [] }

section

variable (xAxis yAxis : Axis)

/-- What `run` does with an event (lines 353–392); `ok` is whether a `send` succeeds. `none`: the
channel is closed, and `run` returns. -/
def handle (g : Gesture) (ev : Event) (ok : Bool) : Option Gesture :=
  if ev.kind = EV_ABS ∧ ev.code = ABS_X then
    some { g with state.x := xAxis.toScreen ev.value.toInt32 WIDTH, dirty := true }
  else if ev.kind = EV_ABS ∧ ev.code = ABS_Y then
    some { g with state.y := yAxis.toScreen ev.value.toInt32 HEIGHT, dirty := true }
  else if ev.kind = EV_KEY ∧ (ev.code = BTN_LEFT ∨ ev.code = BTN_TOUCH) then
    some { g with state.down := ev.value != 0, dirty := true }
  else if ev.kind = EV_SYN ∧ g.dirty then
    if ok then some { g with sent := g.sent ++ [message g.state], dirty := false } else none
  else some g

end

/-! ## What the events say -/

namespace Event

def reportsX (ev : Event) : Bool := ev.kind = EV_ABS ∧ ev.code = ABS_X

def reportsY (ev : Event) : Bool := ev.kind = EV_ABS ∧ ev.code = ABS_Y

def reportsDown (ev : Event) : Bool := ev.kind = EV_KEY ∧ (ev.code = BTN_LEFT ∨ ev.code = BTN_TOUCH)

/-- The event reports one of the three. -/
def reports (ev : Event) : Bool := ev.reportsX || ev.reportsY || ev.reportsDown

def syncs (ev : Event) : Bool := ev.kind = EV_SYN

end Event

section

variable (xAxis yAxis : Axis)

/-- The state that the last reports give. -/
def stateAfter (evs : List Event) : State where
  x := ((evs.reverse.find? Event.reportsX).map (xAxis.toScreen ·.value.toInt32 WIDTH)).getD 0
  y := ((evs.reverse.find? Event.reportsY).map (yAxis.toScreen ·.value.toInt32 HEIGHT)).getD 0
  down := ((evs.reverse.find? Event.reportsDown).map (·.value != 0)).getD false

/-- Something was reported after the last `EV_SYN`. -/
def pending (evs : List Event) : Bool := (evs.reverse.takeWhile (!·.syncs)).any Event.reports

/-- The states at each `EV_SYN` that follows a report since the `EV_SYN` before it. -/
def expected (evs : List Event) : List State :=
  (List.range evs.length).filterMap fun n =>
    if (evs[n]?.any Event.syncs) ∧ pending (evs.take n) then
      some (stateAfter xAxis yAxis (evs.take n))
    else none

variable {xAxis yAxis} {evs : List Event} {ev : Event} {g g' : Gesture} {ok : Bool}

theorem stateAfter_lt :
    (stateAfter xAxis yAxis evs).x < WIDTH ∧ (stateAfter xAxis yAxis evs).y < HEIGHT := by
  constructor
  · rw [stateAfter]
    cases evs.reverse.find? Event.reportsX with
    | none => exact Nat.succ_pos _
    | some ev => exact xAxis.toScreen_lt _ (by decide)
  · rw [stateAfter]
    cases evs.reverse.find? Event.reportsY with
    | none => exact Nat.succ_pos _
    | some ev => exact yAxis.toScreen_lt _ (by decide)

theorem mem_expected {st : State} (h : st ∈ expected xAxis yAxis evs) :
    ∃ n, stateAfter xAxis yAxis (evs.take n) = st := by
  obtain ⟨n, -, hn⟩ := List.mem_filterMap.mp h
  split_ifs at hn
  exact ⟨n, Option.some.inj hn⟩

/-! ## One more event -/

theorem stateAfter_snoc : stateAfter xAxis yAxis (evs ++ [ev]) =
    { x := if ev.reportsX then xAxis.toScreen ev.value.toInt32 WIDTH else (stateAfter xAxis yAxis evs).x
      y := if ev.reportsY then yAxis.toScreen ev.value.toInt32 HEIGHT else (stateAfter xAxis yAxis evs).y
      down := if ev.reportsDown then ev.value != 0 else (stateAfter xAxis yAxis evs).down } := by
  simp only [stateAfter, List.reverse_append, List.reverse_singleton, List.singleton_append,
    List.find?_cons]
  cases ev.reportsX <;> cases ev.reportsY <;> cases ev.reportsDown <;> rfl

theorem pending_snoc : pending (evs ++ [ev]) = (!ev.syncs && (ev.reports || pending evs)) := by
  rw [pending, List.reverse_append, List.reverse_singleton, List.singleton_append, List.takeWhile_cons]
  cases ev.syncs <;> rfl

theorem expected_snoc : expected xAxis yAxis (evs ++ [ev]) = expected xAxis yAxis evs ++
    if ev.syncs ∧ pending evs then [stateAfter xAxis yAxis evs] else [] := by
  have hearlier : ∀ n ∈ List.range evs.length,
      (if ((evs ++ [ev])[n]?.any Event.syncs) ∧ pending ((evs ++ [ev]).take n) then
        some (stateAfter xAxis yAxis ((evs ++ [ev]).take n)) else none) =
      if (evs[n]?.any Event.syncs) ∧ pending (evs.take n) then
        some (stateAfter xAxis yAxis (evs.take n)) else none := by
    intro n hn
    have hn := List.mem_range.mp hn
    rw [List.getElem?_append_left hn, List.take_append_of_le_length hn.le]
  rw [expected, List.length_append, List.length_singleton, List.range_succ, List.filterMap_append,
    List.filterMap_congr hearlier, expected]
  congr 1
  simp only [List.filterMap_cons, List.filterMap_nil, List.getElem?_concat_length, Option.any_some,
    List.take_left]
  split_ifs <;> rfl

/-- What a report says of the kinds of the others. -/
theorem not_syncs_of_reports (h : ev.reports) : ev.syncs = false := by
  simp only [Event.reports, Event.reportsX, Event.reportsY, Event.reportsDown, Bool.or_eq_true,
    decide_eq_true_eq] at h
  rw [Event.syncs, decide_eq_false_iff_not]
  rcases h with (⟨h, -⟩ | ⟨h, -⟩) | ⟨h, -⟩ <;> · rw [h]; decide

/-! ## What is sent follows from the events -/

variable (xAxis yAxis) in
/-- The local variables and what was sent are those that the events give. -/
structure Follows (g : Gesture) (evs : List Event) : Prop where
  state : g.state = stateAfter xAxis yAxis evs
  dirty : g.dirty = pending evs
  sent : g.sent.filter isInput = (expected xAxis yAxis evs).map message

theorem start_follows : Follows xAxis yAxis .start [] := ⟨rfl, rfl, rfl⟩

/-- A report changes the state as it says, and something is pending then. -/
theorem Follows.report (h : Follows xAxis yAxis g evs) (hr : ev.reports)
    (hstate : g'.state = stateAfter xAxis yAxis (evs ++ [ev])) (hdirty : g'.dirty = true)
    (hsent : g'.sent = g.sent) : Follows xAxis yAxis g' (evs ++ [ev]) where
  state := hstate
  dirty := by rw [hdirty, pending_snoc, not_syncs_of_reports hr, hr]; rfl
  sent := by
    rw [hsent, h.sent, expected_snoc, not_syncs_of_reports hr, if_neg (by simp), List.append_nil]

/-- Without a report the state stays. -/
theorem stateAfter_quiet (h : ev.reports = false) :
    stateAfter xAxis yAxis (evs ++ [ev]) = stateAfter xAxis yAxis evs := by
  simp only [Event.reports, Bool.or_eq_false_iff] at h
  simp [stateAfter_snoc, h.1.1, h.1.2, h.2]

/-- An `EV_SYN` after a report sends the state. -/
theorem Follows.sync (h : Follows xAxis yAxis g evs) (hs : ev.kind = EV_SYN) (hd : g.dirty = true) :
    Follows xAxis yAxis { g with sent := g.sent ++ [message g.state], dirty := false } (evs ++ [ev]) := by
  have hsyncs : ev.syncs = true := decide_eq_true hs
  have hquiet : ev.reports = false := by
    by_contra hr
    rw [not_syncs_of_reports (Bool.of_not_eq_false hr)] at hsyncs
    cases hsyncs
  have hinput : isInput (message g.state) = true := rfl
  refine ⟨?_, ?_, ?_⟩
  · rw [stateAfter_quiet hquiet, h.state]
  · rw [pending_snoc, hsyncs]
    rfl
  · rw [expected_snoc, if_pos ⟨hsyncs, h.dirty ▸ hd⟩, List.filter_append, h.sent, List.map_append,
      List.filter_singleton, hinput, h.state]
    rfl

/-- Any other event changes nothing. -/
theorem Follows.other (h : Follows xAxis yAxis g evs) (hr : ev.reports = false)
    (hs : ¬(ev.kind = EV_SYN ∧ g.dirty = true)) : Follows xAxis yAxis g (evs ++ [ev]) := by
  have hquiet : ¬(ev.syncs = true ∧ pending evs = true) := by
    rw [← h.dirty, Event.syncs, decide_eq_true_eq]
    exact hs
  refine ⟨?_, ?_, ?_⟩
  · rw [stateAfter_quiet hr, h.state]
  · rw [pending_snoc, hr, h.dirty]
    cases hsyncs : ev.syncs with
    | false => rfl
    | true => exact Bool.eq_false_of_not_eq_true fun hp => hquiet ⟨hsyncs, hp⟩
  · rw [expected_snoc, if_neg hquiet, List.append_nil, h.sent]

theorem handle_follows (h : Follows xAxis yAxis g evs)
    (hh : handle xAxis yAxis g ev ok = some g') : Follows xAxis yAxis g' (evs ++ [ev]) := by
  have hkinds : EV_ABS ≠ EV_KEY ∧ ABS_X ≠ ABS_Y := by decide
  rw [handle] at hh
  split_ifs at hh with hx hy hd hs hok <;> obtain rfl := Option.some.inj hh
  · have hreports : ev.reports := by simp [Event.reports, Event.reportsX, hx]
    refine h.report hreports ?_ rfl rfl
    simp [stateAfter_snoc, Event.reportsX, Event.reportsY, Event.reportsDown, hx, hkinds, h.state]
  · have hreports : ev.reports := by simp [Event.reports, Event.reportsY, hy]
    refine h.report hreports ?_ rfl rfl
    simp [stateAfter_snoc, Event.reportsX, Event.reportsY, Event.reportsDown, hy, hkinds,
      hkinds.2.symm, h.state]
  · have hreports : ev.reports := by simp [Event.reports, Event.reportsDown, hd]
    refine h.report hreports ?_ rfl rfl
    simp [stateAfter_snoc, Event.reportsX, Event.reportsY, Event.reportsDown, hd, hkinds.1.symm,
      h.state]
  · exact h.sync hs.1 hs.2
  · refine h.other ?_ hs
    simp [Event.reports, Event.reportsX, Event.reportsY, Event.reportsDown, hx, hy, hd]

/-- What else is sent leaves the messages alone. -/
theorem Follows.beat (h : Follows xAxis yAxis g evs) :
    Follows xAxis yAxis { g with sent := g.sent ++ [[]] } evs :=
  ⟨h.state, h.dirty, by rw [List.filter_append, h.sent]; exact List.append_nil _⟩

end

end JungeyOs.Inputdrv
