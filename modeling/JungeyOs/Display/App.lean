import JungeyOs.Display.Commands

/-!
# An application

Model of `user/src/app.rs`: the messages that an application builds in a buffer of its own, and what
it does with the events that it receives. What it prints is left out, and so is the end of the
session: the capabilities of the application are not revoked.

Results:
* `draw_eq`: what `draw` sends is the commands for all rows, cut between commands and never truncated.
* `phaseAfter_eq`: a row is on if and only if it was tapped an odd number of times.
* `handle_sends`: what is sent for an event brings the window up to date.
-/

namespace JungeyOs.Display

open Bytes

/-- `EV_START` (line 33). -/
def EV_START : UInt8 := 0x41

/-- `ROW_H`, `MAX_ROWS` and `INSET` (lines 35–41); `TITLE_BAR` is that of the server. -/
def ROW_H : ℕ := 34

def MAX_ROWS : ℕ := 6

def INSET : ℕ := 10

/-! ## Messages (lines 43–82) -/

/-- The size of `Msg::buf` (line 45). -/
def MSG_SIZE : ℕ := 512

abbrev Msg := UpTo MSG_SIZE UInt8

namespace Msg

def new : Msg := UpTo.empty

def b (m : Msg) (v : UInt8) : Msg := m.push v

def be16 (m : Msg) (v : ℕ) : Msg := (m.b (UInt8.ofNat (v >>> 8))).b (UInt8.ofNat v)

def le32 (m : Msg) (v : UInt32) : Msg := (leBytes32 v).foldl b m

def text (m : Msg) (s : List UInt8) : Msg :=
  let n := min s.length 40
  (s.take n).foldl b (m.b (UInt8.ofNat n))

end Msg

/-! ## The application -/

/-- `App` (lines 84–98), but for the tag in what it prints. -/
structure App where
  win : UInt8
  x : ℕ
  y : ℕ
  w : ℕ
  h : ℕ
  bg : UInt32
  accent : UInt32
  title : List UInt8
  rows : List (List UInt8)
  poach : Option UInt8

namespace App

variable (app : App)

/-- The rows that `draw` takes (line 103). -/
def shown : List (Fin MAX_ROWS × List UInt8) :=
  (List.finRange MAX_ROWS).filterMap fun i => app.rows[i.val]?.map (i, ·)

/-- The message under construction, and those that were sent. -/
structure Drawing where
  msg : Msg
  sent : List Msg

/-- The color of a row (line 105). -/
def color (on : Fin MAX_ROWS → Bool) (i : Fin MAX_ROWS) : UInt32 :=
  if on i then app.accent else 0xff30363d

/-- One turn of the loop of `draw` (lines 103–125). -/
def drawRow (on : Fin MAX_ROWS → Bool) (d : Drawing) (p : Fin MAX_ROWS × List UInt8) : Drawing :=
  let y := 10 + p.1.val * ROW_H
  let m := (d.msg.b OP_WIN_FILL).b app.win
  let m := (((m.be16 10).be16 y).be16 (app.w - 20)).be16 (ROW_H - 8)
  let m := m.le32 (app.color on p.1)
  let m := (m.b OP_WIN_TEXT).b app.win
  let m := (((m.be16 20).be16 (y + 9)).le32 0xffe6edf3).b 1
  let m := m.text p.2
  if m.val.length > 300 then { msg := Msg.new, sent := d.sent ++ [m] } else { d with msg := m }

/-- `draw` (lines 100–128): the messages that it sends. -/
def draw (on : Fin MAX_ROWS → Bool) : List Msg :=
  let d := app.shown.foldl (app.drawRow on) { msg := (Msg.new.b OP_WIN_RESET).b app.win, sent := [] }
  d.sent ++ [d.msg.b OP_COMPOSE]

/-- The message that opens the window (lines 142–150). -/
def createMsg : Msg :=
  let m := (Msg.new.b OP_WIN_CREATE).b app.win
  let m := (((m.be16 app.x).be16 app.y).be16 app.w).be16 app.h
  (m.le32 app.bg).text app.title

/-- The message for the window of somebody else (lines 166–169). -/
def poachMsgs : List Msg :=
  match app.poach with
  | none => []
  | some id => [((((Msg.new.b OP_WIN_MOVE).b id).be16 0).be16 0).b OP_COMPOSE]

/-- The message that raises the window (lines 192–193). -/
def raiseMsg : Msg := (Msg.new.b OP_WIN_RAISE).b app.win

/-- Where `run` is: in front of its window, or in the loop over the taps. -/
inductive Phase
  | waiting
  | opened (on : Fin MAX_ROWS → Bool)

/-- `run` (lines 130–217), from one event to the next: where it is then, and what it has sent. -/
def handle (ev : List UInt8) : Phase → Phase × List Msg
  | .waiting =>
    if 1 ≤ ev.length ∧ ev.getD 0 0 = EV_START then
      (.opened fun _ => false, app.createMsg :: (app.draw (fun _ => false) ++ app.poachMsgs))
    else (.waiting, [])
  | .opened on =>
    if ev.length < 7 ∨ ev.getD 0 0 ≠ EV_TAP then (.opened on, [])
    else
      let ry := be16 (ev.drop 4)
      if ry < TITLE_BAR + INSET then (.opened on, [app.raiseMsg])
      else
        let row := (ry - TITLE_BAR - INSET) / ROW_H
        if h : row < MAX_ROWS then
          if row < app.rows.length then
            let on := Function.update on ⟨row, h⟩ (!on ⟨row, h⟩)
            (.opened on, app.raiseMsg :: app.draw on)
          else (.opened on, [app.raiseMsg])
        else (.opened on, [app.raiseMsg])

end App

/-! ## What is sent -/

namespace Msg

variable {m : Msg} {l : List UInt8}

theorem foldl_b (h : m.val.length + l.length ≤ MSG_SIZE) : (l.foldl b m).val = m.val ++ l := by
  induction l generalizing m with
  | nil => simp
  | cons v l ih =>
    rw [List.length_cons] at h
    have hb : (m.b v).val = m.val ++ [v] := by
      rw [b, UpTo.push, dif_pos (by omega)]
    rw [List.foldl_cons, ih (by rw [hb, List.length_append, List.length_singleton]; omega), hb,
      List.append_assoc]
    rfl

/-- A `usize` is cut to 16 bits. -/
theorem beBytes_ofNat (v : ℕ) :
    beBytes (UInt16.ofNat v) = [UInt8.ofNat (v >>> 8), UInt8.ofNat v] := by
  have hhigh : (UInt16.ofNat v >>> 8).toUInt8 = UInt8.ofNat (v >>> 8) := by
    apply UInt8.toNat_inj.mp
    rw [UInt16.toNat_toUInt8, UInt16.toNat_shiftRight, UInt16.toNat_ofNat', UInt8.toNat_ofNat',
      Nat.shiftRight_eq_div_pow, Nat.shiftRight_eq_div_pow]
    have height : (8 : UInt16).toNat % 16 = 8 := rfl
    rw [height]
    omega
  have hlow : (UInt16.ofNat v).toUInt8 = UInt8.ofNat v := by
    apply UInt8.toNat_inj.mp
    rw [UInt16.toNat_toUInt8, UInt16.toNat_ofNat', UInt8.toNat_ofNat']
    omega
  rw [beBytes, hhigh, hlow]

theorem be16_eq (v : ℕ) : m.be16 v = (beBytes (UInt16.ofNat v)).foldl b m := by
  rw [beBytes_ofNat]
  rfl

theorem text_eq (s : List UInt8) :
    m.text s = (UInt8.ofNat (s.take MAX_TEXT).length :: s.take MAX_TEXT).foldl b m := by
  have htake : s.take (min s.length 40) = s.take MAX_TEXT := by
    rw [Nat.min_comm, ← List.take_take, List.take_length]
    rfl
  have hlen : min s.length 40 = (s.take MAX_TEXT).length := by
    rw [List.length_take, Nat.min_comm]
    rfl
  rw [text, htake, hlen]
  rfl

end Msg

/-- Messages of commands, cut between commands. -/
def Sends (msgs : List Msg) (parts : List (List Command)) : Prop :=
  msgs.map (·.val) = parts.map (·.flatMap Command.encode)

namespace App

variable (app : App)

/-- The commands for a row. -/
def rowCommands (on : Fin MAX_ROWS → Bool) (p : Fin MAX_ROWS × List UInt8) : List Command :=
  let y := 10 + p.1.val * ROW_H
  [.fill app.win (UInt16.ofNat 10) (UInt16.ofNat y) (UInt16.ofNat (app.w - 20))
      (UInt16.ofNat (ROW_H - 8)) (app.color on p.1),
    .text app.win (UInt16.ofNat 20) (UInt16.ofNat (y + 9)) 0xffe6edf3 1 (UpTo.take MAX_TEXT p.2)]

/-- The commands that `draw` sends. -/
def drawCommands (on : Fin MAX_ROWS → Bool) : List Command :=
  .reset app.win :: (app.shown.flatMap (app.rowCommands on) ++ [.compose])

section

variable {app} {on : Fin MAX_ROWS → Bool} {d : Drawing} {p : Fin MAX_ROWS × List UInt8}

/-- The commands that were drawn are in the messages that were sent, and in the one under
construction, which has room for another row. -/
structure Drawing.Holds (d : Drawing) (cs : List Command) (parts : List (List Command))
    (rest : List Command) : Prop where
  sent : Sends d.sent parts
  msg : d.msg.val = rest.flatMap Command.encode
  commands : parts.flatten ++ rest = cs
  room : d.msg.val.length ≤ 300

theorem length_rowCommands : ((app.rowCommands on p).flatMap Command.encode).length ≤ 66 := by
  have htext : (UpTo.take MAX_TEXT p.2).val.length ≤ 40 := (UpTo.take MAX_TEXT p.2).property
  simp only [rowCommands, List.flatMap_cons, List.flatMap_nil, Command.encode, List.length_append,
    List.length_cons, List.length_nil, beBytes, length_leBytes32]
  omega

theorem holds_drawRow {cs rest : List Command} {parts : List (List Command)} (h : d.Holds cs parts rest) :
    ∃ parts' rest', (app.drawRow on d p).Holds (cs ++ app.rowCommands on p) parts' rest' := by
  let m := ((app.rowCommands on p).flatMap Command.encode).foldl Msg.b d.msg
  have hrow : app.drawRow on d p =
      if m.val.length > 300 then { msg := Msg.new, sent := d.sent ++ [m] } else { d with msg := m } := by
    simp only [drawRow, m, rowCommands, List.flatMap_cons, List.flatMap_nil, List.append_nil,
      Command.encode, List.foldl_append, List.foldl_cons, Msg.be16_eq, Msg.text_eq, Msg.le32, UpTo.take]
  have hm : m.val = (rest ++ app.rowCommands on p).flatMap Command.encode := by
    have hle : ((app.rowCommands on p).flatMap Command.encode).length ≤ 66 := length_rowCommands
    have hroom := h.room
    rw [List.flatMap_append, ← h.msg]
    exact Msg.foldl_b (Nat.le_trans (Nat.add_le_add hroom hle) (by decide))
  have hcs : parts.flatten ++ (rest ++ app.rowCommands on p) = cs ++ app.rowCommands on p := by
    rw [← List.append_assoc, h.commands]
  rw [hrow]
  split_ifs with hlong
  · refine ⟨parts ++ [rest ++ app.rowCommands on p], [], ?_, rfl, ?_, Nat.zero_le _⟩
    · rw [Sends, List.map_append, List.map_append, h.sent, List.map_singleton, List.map_singleton, hm]
    · rw [List.flatten_append, List.append_nil, List.flatten_singleton, hcs]
  · exact ⟨parts, rest ++ app.rowCommands on p, h.sent, hm, hcs, Nat.not_lt.mp hlong⟩

/-- What `draw` sends. -/
theorem draw_eq (on : Fin MAX_ROWS → Bool) :
    ∃ parts, Sends (app.draw on) parts ∧ parts.flatten = app.drawCommands on := by
  let start : Drawing := { msg := (Msg.new.b OP_WIN_RESET).b app.win, sent := [] }
  have hfold : ∀ (rows : List (Fin MAX_ROWS × List UInt8)) (d : Drawing) (cs : List Command)
      (parts : List (List Command)) (rest : List Command), d.Holds cs parts rest →
      ∃ parts' rest', (rows.foldl (app.drawRow on) d).Holds (cs ++ rows.flatMap (app.rowCommands on))
        parts' rest' := by
    intro rows
    induction rows with
    | nil => exact fun d cs parts rest h => ⟨parts, rest, by simpa using h⟩
    | cons p rows ih =>
      intro d cs parts rest h
      have hrow : ∃ parts' rest', (app.drawRow on d p).Holds (cs ++ app.rowCommands on p) parts' rest' :=
        holds_drawRow h
      obtain ⟨parts', rest', h'⟩ := hrow
      obtain ⟨parts'', rest'', h''⟩ := ih _ _ _ _ h'
      exact ⟨parts'', rest'', by simpa using h''⟩
  have hstart : start.Holds [.reset app.win] [] [.reset app.win] :=
    ⟨rfl, rfl, rfl, Nat.le_add_left 2 298⟩
  obtain ⟨parts, rest, h⟩ := hfold app.shown start _ _ _ hstart
  have hroom := h.room
  have hlast : ((app.shown.foldl (app.drawRow on) start).msg.b OP_COMPOSE).val =
      (rest ++ [Command.compose]).flatMap Command.encode := by
    rw [List.flatMap_append, ← h.msg]
    exact Msg.foldl_b (l := [OP_COMPOSE]) (Nat.le_trans (Nat.succ_le_succ hroom) (by decide))
  refine ⟨parts ++ [rest ++ [.compose]], ?_, ?_⟩
  · rw [Sends, draw, List.map_append, List.map_append, h.sent, List.map_singleton, List.map_singleton,
      hlast]
  · rw [List.flatten_append, List.flatten_singleton, ← List.append_assoc, h.commands, drawCommands,
      List.append_assoc]
    rfl

end

/-- The command that opens the window. -/
def createCommand : Command :=
  .create app.win (UInt16.ofNat app.x) (UInt16.ofNat app.y) (UInt16.ofNat app.w) (UInt16.ofNat app.h)
    app.bg (UpTo.take MAX_TEXT app.title)

theorem createMsg_eq : app.createMsg.val = app.createCommand.encode := by
  have hmsg : app.createMsg = app.createCommand.encode.foldl Msg.b Msg.new := by
    simp only [createMsg, createCommand, Command.encode, List.foldl_append, List.foldl_cons, Msg.be16_eq,
      Msg.text_eq, Msg.le32, UpTo.take]
  have hlen : app.createCommand.encode.length ≤ 55 := by
    have htext : (UpTo.take MAX_TEXT app.title).val.length ≤ 40 := (UpTo.take MAX_TEXT app.title).property
    simp only [createCommand, Command.encode, List.length_append, List.length_cons, List.length_nil,
      beBytes, length_leBytes32]
    omega
  rw [hmsg]
  exact Msg.foldl_b (Nat.le_trans (Nat.add_le_add_left hlen 0) (by decide))

/-- The commands for the window of somebody else. -/
def poachCommands : List Command :=
  match app.poach with
  | none => []
  | some id => [.move id 0 0, .compose]

theorem sends_poach : ∃ parts, Sends app.poachMsgs parts ∧ parts.flatten = app.poachCommands := by
  rw [poachMsgs, poachCommands]
  cases app.poach with
  | none => exact ⟨[], rfl, rfl⟩
  | some id => exact ⟨[[.move id 0 0, .compose]], rfl, rfl⟩

/-! ## What the window is to show -/

/-- What the window has for a row. -/
def rowCmds (on : Fin MAX_ROWS → Bool) (p : Fin MAX_ROWS × List UInt8) : List Cmd :=
  let y := 10 + p.1.val * ROW_H
  [.fill 10 y ((app.w - 20) % 2 ^ 16) (ROW_H - 8) (app.color on p.1),
    .text 20 (y + 9) 1 0xffe6edf3 (UpTo.take MAX_TEXT p.2)]

/-- Where the window is; an application that moves its own window has it in the corner. -/
def rect : Rect :=
  let r : Rect := { x := app.x % 2 ^ 16, y := app.y % 2 ^ 16, w := app.w % 2 ^ 16, h := app.h % 2 ^ 16 }
  if app.poach = some app.win then ({ r.clampToScreen with x := 0, y := 0 } : Rect).clampToScreen
  else r.clampToScreen

/-- The window, with the rows as they are. -/
def view (on : Fin MAX_ROWS → Bool) : View where
  rect := app.rect
  bg := app.bg
  title := UpTo.take MAX_TITLE (app.title.take MAX_TEXT)
  cmds := UpTo.take MAX_CMDS (app.shown.flatMap (app.rowCmds on))

/-- The window when `run` has come to this place. -/
def window : Phase → Option View
  | .waiting => none
  | .opened on => some (app.view on)

section

variable {app} {on : Fin MAX_ROWS → Bool} {v : View}

theorem length_shown : app.shown.length ≤ MAX_ROWS :=
  (List.length_filterMap_le ..).trans (List.length_finRange ..).le

theorem val_push {n : ℕ} {l : UpTo n Cmd} {c : Cmd} (h : l.val.length < n) :
    (l.push c).val = l.val ++ [c] := by
  rw [UpTo.push, dif_pos h]

/-- The commands for a row are added to the window. -/
theorem apply_row {p : Fin MAX_ROWS × List UInt8} (hroom : v.cmds.val.length + 2 ≤ MAX_CMDS) :
    ∃ cmds : UpTo MAX_CMDS Cmd, cmds.val = v.cmds.val ++ app.rowCmds on p ∧
      (app.rowCommands on p).foldl (Command.apply app.win) (some v) = some { v with cmds := cmds } := by
  have hrow := p.1.isLt
  have hy : (UInt16.ofNat (10 + p.1.val * ROW_H)).toNat = 10 + p.1.val * ROW_H := by
    rw [UInt16.toNat_ofNat', Nat.mod_eq_of_lt (by unfold ROW_H; unfold MAX_ROWS at hrow; omega)]
  have hy' : (UInt16.ofNat (10 + p.1.val * ROW_H + 9)).toNat = 10 + p.1.val * ROW_H + 9 := by
    rw [UInt16.toNat_ofNat', Nat.mod_eq_of_lt (by unfold ROW_H; unfold MAX_ROWS at hrow; omega)]
  obtain ⟨c₁, c₂, hcmds, hfold⟩ : ∃ c₁ c₂, app.rowCmds on p = [c₁, c₂] ∧
      (app.rowCommands on p).foldl (Command.apply app.win) (some v) =
        some { v with cmds := (v.cmds.push c₁).push c₂ } := by
    refine ⟨.fill (UInt16.ofNat 10).toNat (UInt16.ofNat (10 + p.1.val * ROW_H)).toNat
        (UInt16.ofNat (app.w - 20)).toNat (UInt16.ofNat (ROW_H - 8)).toNat (app.color on p.1),
      .text (UInt16.ofNat 20).toNat (UInt16.ofNat (10 + p.1.val * ROW_H + 9)).toNat (max 1 1 : UInt8).toNat
        0xffe6edf3 (UpTo.take MAX_TEXT p.2), ?_, ?_⟩
    · rw [hy, hy', UInt16.toNat_ofNat' (n := app.w - 20)]
      rfl
    · simp only [rowCommands, List.foldl_cons, List.foldl_nil, Command.apply, if_true, Option.map_some]
  refine ⟨(v.cmds.push c₁).push c₂, ?_, hfold⟩
  rw [val_push (by rw [val_push (by omega)]; simp; omega), val_push (by omega), List.append_assoc, hcmds]
  rfl

theorem apply_rows (rows : List (Fin MAX_ROWS × List UInt8))
    (hroom : v.cmds.val.length + 2 * rows.length ≤ MAX_CMDS) :
    ∃ cmds : UpTo MAX_CMDS Cmd, cmds.val = v.cmds.val ++ rows.flatMap (app.rowCmds on) ∧
      (rows.flatMap (app.rowCommands on)).foldl (Command.apply app.win) (some v) =
        some { v with cmds := cmds } := by
  induction rows generalizing v with
  | nil => exact ⟨v.cmds, by simp, rfl⟩
  | cons p rows ih =>
    rw [List.length_cons] at hroom
    have hroom' : v.cmds.val.length + 2 ≤ MAX_CMDS := by omega
    obtain ⟨cmds, hcmds, hrow⟩ := @apply_row app on v p hroom'
    obtain ⟨cmds', hcmds', hrows⟩ := ih (v := { v with cmds := cmds }) (by
      rw [hcmds, List.length_append]
      have htwo : (app.rowCmds on p).length = 2 := rfl
      omega)
    refine ⟨cmds', by rw [hcmds', hcmds, List.flatMap_cons, List.append_assoc], ?_⟩
    rw [List.flatMap_cons, List.foldl_append, hrow, hrows]

/-- What `draw` sends makes the window show the rows, whatever it has shown. -/
theorem apply_draw (on : Fin MAX_ROWS → Bool) (v : View) :
    (app.drawCommands on).foldl (Command.apply app.win) (some v) =
      some { v with cmds := UpTo.take MAX_CMDS (app.shown.flatMap (app.rowCmds on)) } := by
  have hreset : Command.apply app.win (some v) (.reset app.win) =
      some { v with cmds := UpTo.empty } := if_pos rfl
  have hlen : app.shown.length ≤ MAX_ROWS := length_shown
  have hroom : 0 + 2 * app.shown.length ≤ MAX_CMDS := by
    have hmax : 2 * MAX_ROWS ≤ MAX_CMDS := by decide
    omega
  obtain ⟨cmds, hcmds, hrows⟩ := @apply_rows app on { v with cmds := UpTo.empty } app.shown hroom
  have htake : cmds = UpTo.take MAX_CMDS (app.shown.flatMap (app.rowCmds on)) := by
    have hval : cmds.val = app.shown.flatMap (app.rowCmds on) := hcmds
    apply Subtype.ext
    show cmds.val = List.take MAX_CMDS _
    rw [← hval, List.take_of_length_le cmds.property]
  rw [drawCommands, List.foldl_cons, hreset, List.foldl_append, hrows, htake]
  rfl

/-- What is sent at first makes the window. -/
theorem apply_open : (app.createCommand :: (app.drawCommands (fun _ => false) ++
    app.poachCommands)).foldl (Command.apply app.win) none = app.window (.opened fun _ => false) := by
  have hnew : Command.apply app.win none app.createCommand = some ⟨({
      x := app.x % 2 ^ 16, y := app.y % 2 ^ 16, w := app.w % 2 ^ 16,
      h := app.h % 2 ^ 16 } : Rect).clampToScreen, app.bg,
      UpTo.take MAX_TITLE (app.title.take MAX_TEXT), UpTo.empty⟩ := by
    rw [createCommand, Command.apply, if_pos ⟨rfl, rfl⟩]
    simp only [UInt16.toNat_ofNat', UpTo.take]
  rw [List.foldl_cons, hnew, List.foldl_append, apply_draw, poachCommands, window, view, rect]
  cases hpoach : app.poach with
  | none => simp
  | some id =>
    dsimp only
    rw [List.foldl_cons, List.foldl_cons, List.foldl_nil, Command.apply, Command.apply]
    by_cases hid : id = app.win
    · simp [hid]
    · have hne : ¬some id = some app.win := fun h => hid (Option.some.inj h)
      simp [hid]

/-- What is sent for an event brings the window up to date; only its first command may open one. -/
theorem handle_sends (app : App) (ev : List UInt8) (ph : Phase) :
    ∃ parts, Sends (app.handle ev ph).2 parts ∧ (∀ part ∈ parts, ∀ c ∈ part.tail, ¬c.Opens) ∧
      parts.flatten.foldl (Command.apply app.win) (app.window ph) = app.window (app.handle ev ph).1 := by
  have hquiet : ∀ on, ∀ c ∈ app.drawCommands on, ¬c.Opens := by
    intro on c hc
    simp only [drawCommands, rowCommands, List.mem_cons, List.mem_append, List.mem_flatMap,
      List.not_mem_nil, or_false] at hc
    rcases hc with rfl | ⟨p, -, rfl | rfl⟩ | rfl <;> exact id
  have hpoach : ∀ c ∈ app.poachCommands, ¬c.Opens := by
    intro c hc
    rw [poachCommands] at hc
    cases hid : app.poach with
    | none =>
      rw [hid] at hc
      cases hc
    | some id =>
      rw [hid] at hc
      rcases List.mem_pair.mp hc with rfl | rfl <;> exact fun h => h
  have htails : ∀ (parts : List (List Command)) (cs : List Command), parts.flatten = cs →
      (∀ c ∈ cs, ¬c.Opens) → ∀ part ∈ parts, ∀ c ∈ part.tail, ¬c.Opens := by
    rintro parts _ rfl hcs part hpart c hc
    exact hcs c (List.mem_flatten.mpr ⟨part, hpart, List.mem_of_mem_tail hc⟩)
  have hnothing : ∀ ph, ∃ parts, Sends [] parts ∧ (∀ part ∈ parts, ∀ c ∈ part.tail, ¬c.Opens) ∧
      parts.flatten.foldl (Command.apply app.win) (app.window ph) = app.window ph :=
    fun ph => ⟨[], rfl, nofun, rfl⟩
  have hraise : ∀ ph, ∃ parts, Sends [app.raiseMsg] parts ∧
      (∀ part ∈ parts, ∀ c ∈ part.tail, ¬c.Opens) ∧
      parts.flatten.foldl (Command.apply app.win) (app.window ph) = app.window ph :=
    fun ph => ⟨[[.raise app.win]], rfl, by simp, rfl⟩
  cases ph with
  | waiting =>
    rw [handle]
    split_ifs
    · obtain ⟨parts, hsends, hflat⟩ := app.draw_eq fun _ => false
      obtain ⟨parts', hsends', hflat'⟩ := app.sends_poach
      refine ⟨[app.createCommand] :: (parts ++ parts'), ?_, ?_, ?_⟩
      · rw [Sends, List.map_cons, List.map_append, hsends, hsends', createMsg_eq, List.map_cons,
          List.map_append]
        simp
      · intro part hpart
        rcases List.mem_cons.mp hpart with rfl | hpart
        · exact nofun
        · rcases List.mem_append.mp hpart with hpart | hpart
          · exact htails parts _ hflat (hquiet _) part hpart
          · exact htails parts' _ hflat' hpoach part hpart
      · rw [List.flatten_cons, List.flatten_append, hflat, hflat']
        exact apply_open
    · exact hnothing .waiting
  | opened on =>
    simp only [handle]
    split_ifs
    · exact hnothing _
    · exact hraise _
    · obtain ⟨parts, hsends, hflat⟩ := app.draw_eq (Function.update on _ _)
      refine ⟨[.raise app.win] :: parts, ?_, ?_, ?_⟩
      · rw [Sends, List.map_cons, hsends]
        rfl
      · intro part hpart
        rcases List.mem_cons.mp hpart with rfl | hpart
        · exact nofun
        · exact htails parts _ hflat (hquiet _) part hpart
      · rw [List.flatten_cons, hflat]
        exact apply_draw _ _
    · exact hraise _
    · exact hraise _

end

/-! ## Taps on rows -/

/-- The kernel tells the application to open its window. -/
def started (ev : List UInt8) : Bool := 1 ≤ ev.length && ev.getD 0 0 == EV_START

/-- The row that a tap is for (lines 184–202). -/
def rowOf (ev : List UInt8) : Option (Fin MAX_ROWS) :=
  if ev.length < 7 ∨ ev.getD 0 0 ≠ EV_TAP then none
  else
    let ry := be16 (ev.drop 4)
    if ry < TITLE_BAR + INSET then none
    else
      let row := (ry - TITLE_BAR - INSET) / ROW_H
      if h : row < MAX_ROWS then if row < app.rows.length then some ⟨row, h⟩ else none else none

/-- Where `run` is after these events. -/
def phaseAfter (evs : List (List UInt8)) : Phase := evs.foldl (fun ph ev => (app.handle ev ph).1) .waiting

/-- How often a row was tapped since the application has opened its window. -/
def taps (evs : List (List UInt8)) (i : Fin MAX_ROWS) : ℕ :=
  (evs.dropWhile fun ev => !started ev).tail.countP fun ev => app.rowOf ev = some i

section

variable {app}

theorem handle_opened (ev : List UInt8) (on : Fin MAX_ROWS → Bool) : (app.handle ev (.opened on)).1 =
    .opened fun i => on i ^^ decide (app.rowOf ev = some i) := by
  simp only [handle, rowOf]
  split_ifs with h₁ h₂ h₃ h₄
  · simp
  · simp
  · refine congrArg Phase.opened (funext fun i => ?_)
    rw [Function.update_apply]
    by_cases hi : i = ⟨_, h₃⟩
    · rw [if_pos hi, hi, decide_eq_true rfl, Bool.xor_true]
    · rw [if_neg hi, decide_eq_false fun h => hi (Option.some.inj h).symm, Bool.xor_false]
  · simp
  · simp

theorem foldl_opened (evs : List (List UInt8)) (on : Fin MAX_ROWS → Bool) :
    evs.foldl (fun ph ev => (app.handle ev ph).1) (.opened on) =
      .opened fun i => on i ^^ decide (evs.countP (fun ev => app.rowOf ev = some i) % 2 = 1) := by
  induction evs generalizing on with
  | nil => simp
  | cons ev evs ih =>
    rw [List.foldl_cons, handle_opened, ih]
    congr 1
    funext i
    rw [List.countP_cons]
    by_cases hi : app.rowOf ev = some i
    · rcases Nat.mod_two_eq_zero_or_one (evs.countP fun ev => app.rowOf ev = some i) with h | h <;>
        cases hon : on i <;> simp [hi, h, Nat.add_mod]
    · simp [hi]

/-- A row is on if and only if it was tapped an odd number of times. -/
theorem phaseAfter_eq (evs : List (List UInt8)) : app.phaseAfter evs =
    if evs.any started then .opened fun i => decide (app.taps evs i % 2 = 1) else .waiting := by
  induction evs with
  | nil => rfl
  | cons ev evs ih =>
    have hfirst : app.handle ev .waiting = if started ev then
        (.opened fun _ => false, app.createMsg :: (app.draw (fun _ => false) ++ app.poachMsgs))
        else (.waiting, []) := by
      rw [handle]
      congr 1
      simp [started]
    rw [phaseAfter, List.foldl_cons, hfirst, List.any_cons]
    cases hev : started ev with
    | true =>
      have htaps : ∀ i, app.taps (ev :: evs) i = evs.countP fun ev => app.rowOf ev = some i := by
        intro i
        rw [taps, List.dropWhile_cons, hev]
        rfl
      simp [htaps, foldl_opened]
    | false =>
      have htaps : app.taps (ev :: evs) = app.taps evs := by
        funext i
        rw [taps, List.dropWhile_cons, hev]
        rfl
      rw [htaps]
      exact ih

/-- A tap in the box of a row is for this row. -/
theorem rowOf_box {i : Fin MAX_ROWS} {id : UInt8} {rx ry : ℕ} {ev : List UInt8} (hrow : i.val < app.rows.length)
    (htop : TITLE_BAR + (10 + i.val * ROW_H) ≤ ry)
    (hbottom : ry < TITLE_BAR + (10 + i.val * ROW_H) + (ROW_H - 8))
    (hev : ev = [EV_TAP, id, UInt8.ofNat (rx >>> 8), UInt8.ofNat rx, UInt8.ofNat (ry >>> 8),
      UInt8.ofNat ry, 1]) : app.rowOf ev = some i := by
  have hi := i.isLt
  unfold TITLE_BAR ROW_H at htop hbottom
  have hsix : i.val < 6 := hi
  have hry : be16 (ev.drop 4) = ry := by
    have hbytes : ev.drop 4 = beBytes (UInt16.ofNat ry) ++ [1] := by
      rw [hev, Msg.beBytes_ofNat]
      rfl
    rw [hbytes, be16_beBytes, UInt16.toNat_ofNat', Nat.mod_eq_of_lt (by omega)]
  have hdiv : (ry - TITLE_BAR - INSET) / ROW_H = i.val := by
    unfold TITLE_BAR INSET ROW_H
    omega
  have htap : ¬(ev.length < 7 ∨ ev.getD 0 0 ≠ EV_TAP) := by
    rw [hev]
    simp
  have hlow : ¬ry < TITLE_BAR + INSET := by
    unfold TITLE_BAR INSET
    omega
  rw [rowOf, if_neg htap]
  simp only [hry, if_neg hlow, hdiv]
  rw [dif_pos hi, if_pos hrow]

end

end App

end JungeyOs.Display
