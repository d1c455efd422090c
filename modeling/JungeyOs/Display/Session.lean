import JungeyOs.Display.App
import JungeyOs.Lib.Run

/-!
# An application and its window

The application of `user/src/app.rs`, the display server, and the channels between them, while any
other processes send to the server whatever they like. Messages and events are queued
(`kernel/src/ipc.rs`, lines 35–46) and may wait for any time, so that the window lags behind the
application; its content and the commands that are under way always amount to what the application
wants to show.

Results:
* `taps_after`: the events that the server sends are taps.
* `Inv.step`: what every step keeps of the commands that are under way.
* `rows_follow_taps`: a window shows which rows were tapped an odd number of times.
-/

namespace JungeyOs.Display

open Reads Server

/-! ## Events -/

/-- The event for a tap (`gpudrv.rs`, line 776). -/
def tapEvent (id : UInt8) (rx ry : ℕ) : List UInt8 :=
  [EV_TAP, id, UInt8.ofNat (rx >>> 8), UInt8.ofNat rx, UInt8.ofNat (ry >>> 8), UInt8.ofNat ry, 1]

/-- What the server sends to the channels of clients are taps. -/
def Taps (s s' : Server) : Prop :=
  ∃ new, s'.taps = s.taps ++ new ∧ ∀ t ∈ new, ∃ id rx ry, t.2 = tapEvent id rx ry

section

variable {env : Env} {sender : ℕ} {s s' s'' : Server}

theorem Taps.same (h : s'.taps = s.taps) : Taps s s' := ⟨[], by rw [h, List.append_nil], nofun⟩

theorem Taps.trans (h : Taps s s') (h' : Taps s' s'') : Taps s s'' := by
  obtain ⟨new, hnew, hall⟩ := h
  obtain ⟨new', hnew', hall'⟩ := h'
  refine ⟨new ++ new', by rw [hnew', hnew, List.append_assoc], fun t ht => ?_⟩
  exact (List.mem_append.mp ht).elim (hall t) (hall' t)

theorem taps_routeTap (env : Env) (s : Server) (x y : ℕ) : Taps s (s.routeTap env x y) := by
  rw [routeTap]
  cases s.wm.hit x y with
  | none => exact .same rfl
  | some r =>
    obtain ⟨owner, id, rx, ry⟩ := r
    dsimp only
    cases s.slot owner with
    | none => exact .same rfl
    | some slot =>
      dsimp only
      split_ifs
      · refine ⟨_, rfl, fun t ht => ⟨id, rx, ry, ?_⟩⟩
        rw [List.mem_singleton.mp ht]
        rfl
      · exact .same rfl

theorem taps_after (env : Env) (s : Server) (m : Delivery) : Taps s (after env s m).server := by
  obtain ⟨j, hcomes⟩ := serve_comes env m.sender s m.bytes m.old
  have hall : ∀ b : Server × ℕ, Relation.ReflTransGen
      (Leads env m.sender m.bytes.val.length (received m.old m.bytes)) (s, 0) b → Taps s b.1 := by
    intro b hb
    induction hb with
    | refl => exact .same rfl
    | @tail b c _ hleads ih =>
      obtain ⟨req, len, -, -, hc, -⟩ := turn_eq_next.mp hleads.2
      rw [hc]
      refine ih.trans ?_
      cases req with
      | present => exact .same (compose_taps env b.1)
      | input x y down =>
        rw [perform]
        split_ifs
        · exact taps_routeTap env b.1 x y
        · exact .same rfl
      | _ => exact .same rfl
  exact hall _ hcomes

end

/-! ## The session -/

/-- The application runs in one process and has one channel for its events. `posted` are the events
that were put into it, of which the application has received `next`; `unsent` are the messages that
it has still to send for the last one. -/
structure Session where
  server : Server
  requests : List (ℕ × UpTo BUFFER UInt8)
  posted : List (List UInt8)
  next : ℕ
  phase : App.Phase
  unsent : List Msg

inductive Act
  /-- another process sends to the server -/
  | post (sender : ℕ) (bytes : UpTo BUFFER UInt8)
  /-- `start_app_window` (`kernel/src/display.rs`, lines 127–129) -/
  | start
  /-- the server handles its next message; `old` is what its buffer holds -/
  | serve (old : Vector UInt8 BUFFER)
  | receive
  | send

/-- The message as the server receives it. -/
def Msg.sent (m : Msg) : UpTo BUFFER UInt8 := ⟨m.val, m.property.trans (by decide)⟩

/-- The application runs as process `pid`, and slot `slot` of the server reaches its channel. -/
structure Wiring where
  env : Env
  app : App
  pid : ℕ
  slot : ℕ

namespace Session

variable (w : Wiring)

/-- The events for the application among those that the server has sent. -/
def events (s : Server) : List (List UInt8) := (s.taps.filter (·.1 = w.slot)).map (·.2)

def step (s : Session) : Act → Option Session
  | .post sender bytes =>
    if sender = w.pid then none else some { s with requests := s.requests ++ [(sender, bytes)] }
  | .start => some { s with posted := s.posted ++ [[EV_START]] }
  | .serve old =>
    match s.requests with
    | [] => none
    | (sender, bytes) :: rest =>
      let out := after w.env s.server { sender := sender, bytes := bytes, old := old }
      if out.stop = .done then
        some { s with
          server := out.server
          requests := rest
          posted := s.posted ++ (events w out.server).drop (events w s.server).length }
      else none
  | .receive =>
    match s.unsent, s.posted[s.next]? with
    | [], some ev =>
      let out := w.app.handle ev s.phase
      some { s with next := s.next + 1, phase := out.1, unsent := out.2 }
    | _, _ => none
  | .send =>
    match s.unsent with
    | [] => none
    | m :: rest => some { s with requests := s.requests ++ [(w.pid, m.sent)], unsent := rest }

/-- The server has room for a window when it comes to the message that opens the window. -/
def Roomy (s : Session) : Act → Prop
  | .serve _ => ∀ r ∈ s.requests.head?, r.1 = w.pid → r.2.val.head? = some OP_WIN_CREATE →
      s.server.wm.free.isSome
  | _ => True

/-- The application has not been told to open its window. -/
structure Init (s : Session) : Prop where
  closed : s.server.wm.view w.pid w.app.win = none
  requests : ∀ r ∈ s.requests, r.1 ≠ w.pid
  events : events w s.server = []
  posted : s.posted = []
  next : s.next = 0
  phase : s.phase = .waiting
  unsent : s.unsent = []

/-- The messages of the application that the server has not handled. -/
def pending (s : Session) : List (List UInt8) :=
  (s.requests.filter (·.1 = w.pid)).map (·.2.val) ++ s.unsent.map (·.val)

/-- The window and the commands that are under way amount to what the application wants to show. -/
structure Inv (s : Session) : Prop where
  next : s.next ≤ s.posted.length
  phase : s.phase = w.app.phaseAfter (s.posted.take s.next)
  posted : s.posted.filter (fun ev => !App.started ev) = events w s.server
  window : ∃ parts : List (List Command), pending w s = parts.map (·.flatMap Command.encode) ∧
    (∀ part ∈ parts, ∀ c ∈ part.tail, ¬c.Opens) ∧
    parts.flatten.foldl (Command.apply w.app.win) (s.server.wm.view w.pid w.app.win) =
      w.app.window s.phase

section

variable {w} {s s' : Session} {a : Act}

theorem Init.inv (h : Init w s) : Inv w s := by
  have hnone : s.requests.filter (·.1 = w.pid) = [] :=
    List.filter_eq_nil_iff.mpr fun r hr => by simpa using h.requests r hr
  refine ⟨h.next ▸ Nat.zero_le _, ?_, ?_, [], ?_, nofun, ?_⟩
  · rw [h.phase, h.posted, List.take_nil]
    rfl
  · rw [h.posted, h.events]
    rfl
  · rw [pending, hnone, h.unsent]
    rfl
  · rw [h.closed, h.phase]
    rfl

/-- The events of the server are not the start. -/
theorem events_after (env : Env) (s : Server) (m : Delivery) :
    ∃ new, events w (after env s m).server = events w s ++ new ∧
      new.filter (fun ev => !App.started ev) = new := by
  obtain ⟨new, hnew, hall⟩ := taps_after env s m
  refine ⟨(new.filter (·.1 = w.slot)).map (·.2), ?_, ?_⟩
  · rw [events, hnew, List.filter_append, List.map_append]
    rfl
  · refine List.filter_eq_self.mpr fun ev hev => ?_
    obtain ⟨t, ht, rfl⟩ := List.mem_map.mp hev
    obtain ⟨id, rx, ry, htap⟩ := hall t (List.mem_of_mem_filter ht)
    rw [htap]
    rfl

/-- A command that opens a window begins with its operation. -/
theorem head_of_opens {c : Command} (h : c.Opens) (cs : List Command) :
    ((c :: cs).flatMap Command.encode).head? = some OP_WIN_CREATE := by
  cases c with
  | create => rfl
  | _ => exact h.elim

theorem pending_cons {sender : ℕ} {bytes : UpTo BUFFER UInt8} {rest : List (ℕ × UpTo BUFFER UInt8)}
    (h : s.requests = (sender, bytes) :: rest) :
    pending w s = (if sender = w.pid then [bytes.val] else []) ++ pending w { s with requests := rest } := by
  rw [pending, pending, h, List.filter_cons]
  by_cases hsender : sender = w.pid <;> simp [hsender]

theorem pending_append (sender : ℕ) (bytes : UpTo BUFFER UInt8) (unsent : List Msg) :
    pending w { s with requests := s.requests ++ [(sender, bytes)], unsent := unsent } =
      (s.requests.filter (·.1 = w.pid)).map (·.2.val) ++
        ((if sender = w.pid then [bytes.val] else []) ++ unsent.map (·.val)) := by
  rw [pending, List.filter_append, List.map_append, List.append_assoc]
  by_cases hsender : sender = w.pid <;> simp [hsender]

/-- The server handles a message. -/
theorem Inv.serve (h : Inv w s) {old : Vector UInt8 BUFFER} (hok : Roomy w s (.serve old))
    (hs : step w s (.serve old) = some s') : Inv w s' := by
  rw [step] at hs
  cases hrequests : s.requests with
  | nil =>
    rw [hrequests] at hs
    cases hs
  | cons r rest =>
    obtain ⟨sender, bytes⟩ := r
    rw [hrequests] at hs
    dsimp only at hs
    split_ifs at hs
    cases hs
    obtain ⟨parts, hpending, htails, hfold⟩ := h.window
    obtain ⟨new, hnew, hquiet⟩ :=
      events_after (w := w) w.env s.server { sender := sender, bytes := bytes, old := old }
    have hdrop : (events w (after w.env s.server
        { sender := sender, bytes := bytes, old := old }).server).drop (events w s.server).length =
        new := by
      rw [hnew, List.drop_left]
    rw [pending_cons hrequests] at hpending
    refine ⟨?_, ?_, ?_, ?_⟩
    · rw [List.length_append]
      exact h.next.trans (Nat.le_add_right ..)
    · rw [List.take_append_of_le_length h.next]
      exact h.phase
    · dsimp only
      rw [hdrop, List.filter_append, h.posted, hquiet, hnew]
    · by_cases hsender : sender = w.pid
      · subst hsender
        rw [if_pos rfl] at hpending
        cases parts with
        | nil => cases hpending
        | cons part parts =>
          obtain ⟨hpart, hrest⟩ := List.cons.inj hpending
          have hfirst : ∀ c ∈ part.head?, c.Opens → s.server.wm.free.isSome := by
            intro c hc hopens
            refine hok (w.pid, bytes) (by rw [hrequests]; rfl) rfl ?_
            cases part with
            | nil => cases hc
            | cons c' cs =>
              obtain rfl : c' = c := Option.some.inj hc
              rw [hpart]
              exact head_of_opens hopens cs
          have hview : (after w.env s.server
              { sender := w.pid, bytes := bytes, old := old }).server.wm.view w.pid w.app.win =
              part.foldl (Command.apply w.app.win) (s.server.wm.view w.pid w.app.win) :=
            (after_commands hpart hfirst (htails part List.mem_cons_self)).2
          refine ⟨parts, hrest, fun part' hpart' => htails part' (List.mem_cons_of_mem _ hpart'), ?_⟩
          rw [List.flatten_cons, List.foldl_append] at hfold
          rw [hview]
          exact hfold
      · rw [if_neg hsender] at hpending
        refine ⟨parts, hpending, htails, ?_⟩
        rw [after_others (Ne.symm hsender)]
        exact hfold

theorem Inv.step (h : Inv w s) (hok : Roomy w s a) (hs : step w s a = some s') : Inv w s' := by
  obtain ⟨parts, hpending, htails, hfold⟩ := h.window
  cases a with
  | serve old => exact h.serve hok hs
  | post sender bytes =>
    rw [Session.step] at hs
    split_ifs at hs with hsender
    cases hs
    refine ⟨h.next, h.phase, h.posted, parts, ?_, htails, hfold⟩
    rw [pending_append, if_neg hsender]
    exact hpending
  | start =>
    cases hs
    refine ⟨?_, ?_, ?_, parts, hpending, htails, hfold⟩
    · rw [List.length_append]
      exact h.next.trans (Nat.le_add_right ..)
    · rw [List.take_append_of_le_length h.next]
      exact h.phase
    · rw [List.filter_append, h.posted]
      exact List.append_nil _
  | receive =>
    rw [Session.step] at hs
    cases hunsent : s.unsent with
    | cons m rest =>
      rw [hunsent] at hs
      cases hs
    | nil =>
      cases hev : s.posted[s.next]? with
      | none =>
        rw [hunsent, hev] at hs
        cases hs
      | some ev =>
        rw [hunsent, hev] at hs
        cases hs
        obtain ⟨hlt, hget⟩ := List.getElem?_eq_some_iff.mp hev
        obtain ⟨new, hsends, htails', hfold'⟩ := App.handle_sends w.app ev s.phase
        refine ⟨hlt, ?_, h.posted, parts ++ new, ?_, ?_, ?_⟩
        · dsimp only
          rw [List.take_add_one, hev, h.phase, App.phaseAfter, App.phaseAfter, List.foldl_append]
          rfl
        · rw [pending, hunsent, List.map_nil, List.append_nil] at hpending
          rw [pending, hpending, List.map_append]
          exact congrArg _ hsends
        · exact fun part hpart => (List.mem_append.mp hpart).elim (htails part) (htails' part)
        · dsimp only
          rw [List.flatten_append, List.foldl_append, hfold, hfold']
  | send =>
    rw [Session.step] at hs
    cases hunsent : s.unsent with
    | nil =>
      rw [hunsent] at hs
      cases hs
    | cons m rest =>
      rw [hunsent] at hs
      cases hs
      refine ⟨h.next, h.phase, h.posted, parts, ?_, htails, hfold⟩
      rw [pending_append, if_pos rfl, ← hpending, pending, hunsent]
      rfl

/-- In a run in which the server has room for the window when it is to be opened, the window shows,
once all events and messages were handled, which rows were tapped an odd number of times since the
application was told to open it; a tap in the box of a row is one for this row. -/
theorem rows_follow_taps (h : Run.Reachable (step w) (Roomy w) (Init w) s) :
    s.phase = w.app.phaseAfter (s.posted.take s.next) ∧
    s.posted.filter (fun ev => !App.started ev) = events w s.server ∧
    (s.posted.length ≤ s.next → s.unsent = [] → (∀ r ∈ s.requests, r.1 ≠ w.pid) →
      s.server.wm.view w.pid w.app.win = if s.posted.any App.started then
        some (w.app.view fun i => decide (w.app.taps s.posted i % 2 = 1)) else none) ∧
    ∀ (i : Fin MAX_ROWS) (id : UInt8) (rx ry : ℕ), i.val < w.app.rows.length →
      TITLE_BAR + (10 + i.val * ROW_H) ≤ ry → ry < TITLE_BAR + (10 + i.val * ROW_H) + (ROW_H - 8) →
      w.app.rowOf (tapEvent id rx ry) = some i := by
  have hinv : Inv w s := h.invariant (Inv w) (fun s hs => hs.inv) fun s a s' hinv hok hs =>
    hinv.step hok hs
  refine ⟨hinv.phase, hinv.posted, fun hnext hunsent hrequests => ?_,
    fun i id rx ry hrow htop hbottom => App.rowOf_box hrow htop hbottom rfl⟩
  obtain ⟨parts, hpending, -, hfold⟩ := hinv.window
  have hnone : s.requests.filter (·.1 = w.pid) = [] :=
    List.filter_eq_nil_iff.mpr fun r hr => by simpa using hrequests r hr
  have hparts : parts = [] := by
    rw [pending, hnone, hunsent] at hpending
    exact List.map_eq_nil_iff.mp hpending.symm
  rw [hparts] at hfold
  have hall : s.posted.take s.next = s.posted := List.take_of_length_le hnext
  rw [hinv.phase, hall, App.phaseAfter_eq] at hfold
  refine hfold.trans ?_
  split_ifs <;> rfl

end

instance (s : Session) (a : Act) : Decidable (Roomy w s a) := by
  cases a <;> unfold Roomy <;> infer_instance

end Session

/-! ## One tap -/

namespace Session

/-- An application with two rows. -/
def twoRows : Wiring where
  env := responsive
  app := { win := 0, x := 0, y := 0, w := 200, h := 120, bg := 0xff161b22, accent := 0xff58a6ff,
           title := [], rows := [[65], [66]], poach := none }
  pid := 7
  slot := 5

def atBoot : Session where
  server := start responsive fun _ => 0
  requests := []
  posted := []
  next := 0
  phase := .waiting
  unsent := []

/-- The window is opened, and process 9 taps on its first row. -/
def oneTap : List Act :=
  let old := Vector.replicate BUFFER 0
  [.start, .receive, .send, .send, .serve old, .serve old,
    .post KERNEL (UpTo.take BUFFER [OP_CLIENT, 7, 0, 0, 0]), .serve old,
    .post 9 (UpTo.take BUFFER [OP_INPUT, 0, 50, 0, 40, 1]), .serve old,
    .receive, .send, .send, .serve old, .serve old]

theorem rows_follow_taps_oneTap : ∃ s, Run.exec (step twoRows) atBoot oneTap = some s ∧
    s.server.wm.view 7 0 = some (twoRows.app.view fun i => decide (i.val = 0)) := by
  have hinit : Init twoRows atBoot :=
    ⟨by decide, nofun, by decide, rfl, rfl, rfl, rfl⟩
  have hmeets : Run.Meets (step twoRows) (Roomy twoRows) atBoot oneTap := by
    set_option maxRecDepth 20000 in decide
  have hrun : (Run.exec (step twoRows) atBoot oneTap).map
      (fun s => (s.posted, s.next, s.unsent.length, s.requests.length)) =
        some ([[EV_START], tapEvent 0 50 40], 2, 0, 0) := by
    set_option maxRecDepth 20000 in decide
  obtain ⟨s, hs, heq⟩ := Option.map_eq_some_iff.mp hrun
  simp only [Prod.mk.injEq, List.length_eq_zero_iff] at heq
  obtain ⟨hposted, hnext, hunsent, hrequests⟩ := heq
  obtain ⟨-, -, hview, -⟩ := rows_follow_taps ((Run.Reachable.start hinit).exec hmeets hs)
  have hodd : ∀ i, decide (twoRows.app.taps s.posted i % 2 = 1) = decide (i.val = 0) := by
    rw [hposted]
    decide
  have hshown := hview (by rw [hposted, hnext]; exact Nat.le_refl 2) hunsent (by rw [hrequests]; nofun)
  rw [hposted, if_pos (by decide), ← hposted, funext hodd] at hshown
  exact ⟨s, hs, hshown⟩

end Session

end JungeyOs.Display
