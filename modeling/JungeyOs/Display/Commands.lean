import JungeyOs.Display.Frame

/-!
# Commands on windows

The messages of applications (`user/src/app.rs`) consist of commands on windows, which the display
server decodes one after the other. What a window shows is decided by the commands of its owner that
name it, in their order; commands of others make no difference.

Results:
* `request_command`: a command that was encoded is decoded to what was asked for.
* `view_perform`, `view_others`: what a command does to what a window shows.
* `after_commands`: what a message of commands does.
-/

namespace JungeyOs.Display

open Bytes Reads Server

/-! ## Commands -/

inductive Command
  | create (id : UInt8) (x y w h : UInt16) (bg : UInt32) (title : UpTo MAX_TEXT UInt8)
  | raise (id : UInt8)
  | move (id : UInt8) (x y : UInt16)
  | fill (id : UInt8) (x y w h : UInt16) (color : UInt32)
  | text (id : UInt8) (x y : UInt16) (color : UInt32) (scale : UInt8) (bytes : UpTo MAX_TEXT UInt8)
  | reset (id : UInt8)
  | compose

namespace Command

/-- The bytes of a command (`gpudrv.rs`, lines 661–716). -/
def encode : Command → List UInt8
  | .create id x y w h bg title =>
    OP_WIN_CREATE :: id :: (beBytes x ++ (beBytes y ++ (beBytes w ++ (beBytes h ++ (leBytes32 bg ++
      UInt8.ofNat title.val.length :: title.val)))))
  | .raise id => [OP_WIN_RAISE, id]
  | .move id x y => OP_WIN_MOVE :: id :: (beBytes x ++ beBytes y)
  | .fill id x y w h color =>
    OP_WIN_FILL :: id :: (beBytes x ++ (beBytes y ++ (beBytes w ++ (beBytes h ++ leBytes32 color))))
  | .text id x y color scale bytes =>
    OP_WIN_TEXT :: id :: (beBytes x ++ (beBytes y ++ (leBytes32 color ++
      scale :: UInt8.ofNat bytes.val.length :: bytes.val)))
  | .reset id => [OP_WIN_RESET, id]
  | .compose => [OP_COMPOSE]

/-- What a command is decoded to; `create` looks at the title if it comes to use it. -/
def request (s : Server) (sender : ℕ) : Command → Request
  | .create id x y w h bg title =>
    .create id { x := x.toNat, y := y.toNat, w := w.toNat, h := h.toNat } bg
      (if s.Takes sender id then title.val.take MAX_TITLE else [])
  | .raise id => .raise id
  | .move id x y => .move id x.toNat y.toNat
  | .fill id x y w h color => .push id (.fill x.toNat y.toNat w.toNat h.toNat color)
  | .text id x y color scale bytes =>
    .push id (.text x.toNat y.toNat (max scale 1).toNat color bytes)
  | .reset id => .reset id
  | .compose => .present

/-- The command opens a window. -/
def Opens : Command → Prop
  | .create .. => True
  | _ => False

end Command

section

variable {buf more : List UInt8} {i : ℕ}

theorem drop_at {b : List UInt8} (hat : buf.drop i = b) (k : ℕ) : buf.drop (i + k) = b.drop k := by
  rw [← List.drop_drop, hat]

theorem byte_at {b : List UInt8} (hat : buf.drop i = b) (k : ℕ) : buf[i + k]? = b[k]? := by
  rw [← List.getElem?_drop, hat]

/-! ### What is read of known bytes -/

theorem run_be16 {v : UInt16} (hat : buf.drop i = beBytes v ++ more) :
    ((be16At i).run buf).2 = some v.toNat := by
  have hlen := congrArg List.length hat
  simp only [List.length_drop, List.length_append, beBytes, List.length_cons, List.length_nil] at hlen
  rw [run_be16At (by omega), hat, be16_beBytes]

theorem run_le32 {v : UInt32} (hat : buf.drop i = leBytes32 v ++ more) :
    ((le32At i).run buf).2 = some v := by
  have hlen := congrArg List.length hat
  simp only [List.length_drop, List.length_append, length_leBytes32] at hlen
  have htake : (buf.drop i).take 4 = leBytes32 v := by
    rw [hat, ← length_leBytes32 v, List.take_left]
  have hle := le32_leBytes32 v []
  rw [List.append_nil] at hle
  rw [le32At, run_bind, run_slice (by omega), Option.bind_some, run_pure, htake, hle]

theorem run_rectBytes {x y w h : UInt16}
    (hat : buf.drop i = beBytes x ++ (beBytes y ++ (beBytes w ++ (beBytes h ++ more)))) :
    ((rectAt i).run buf).2 = some { x := x.toNat, y := y.toNat, w := w.toNat, h := h.toNat } := by
  have hy : buf.drop (i + 2) = beBytes y ++ (beBytes w ++ (beBytes h ++ more)) := drop_at hat 2
  have hw : buf.drop (i + 4) = beBytes w ++ (beBytes h ++ more) := drop_at hat 4
  have hh : buf.drop (i + 6) = beBytes h ++ more := drop_at hat 6
  rw [rectAt, run_bind, run_be16 hat, Option.bind_some, run_bind, run_be16 hy, Option.bind_some, run_bind,
    run_be16 hw, Option.bind_some, run_bind, run_be16 hh, Option.bind_some, run_pure]

/-- The length of a text that fits. -/
theorem toNat_length (l : UpTo MAX_TEXT UInt8) : (UInt8.ofNat l.val.length).toNat = l.val.length := by
  have hle : l.val.length ≤ 40 := l.property
  rw [UInt8.toNat_ofNat', Nat.mod_eq_of_lt (by omega)]

/-- Commands on windows are for everybody. -/
theorem arm_window (sender : ℕ) : arm sender OP_WIN_CREATE = some .create ∧
    arm sender OP_WIN_RAISE = some .raise ∧ arm sender OP_WIN_MOVE = some .move ∧
    arm sender OP_WIN_FILL = some .fill ∧ arm sender OP_WIN_TEXT = some .label ∧
    arm sender OP_WIN_RESET = some .reset ∧ arm sender OP_COMPOSE = some .present := by
  simp [arm, OP_CLEAR, OP_RECT, OP_TEXT, OP_PRESENT, OP_COMPOSE, OP_INPUT, OP_WIN_CREATE, OP_WIN_RAISE,
    OP_WIN_MOVE, OP_WIN_FILL, OP_WIN_TEXT, OP_WIN_RESET]

/-- A command is decoded to what was asked for. -/
theorem request_command (c : Command) (hat : buf.drop i = c.encode ++ more)
    (hbound : i + c.encode.length ≤ buf.length) (s : Server) (sender : ℕ) :
    ((s.request sender i).run buf).2 = some (some (c.request s sender, c.encode.length)) := by
  obtain ⟨hcreate, hraise, hmove, hfill, htext, hreset, hcompose⟩ := arm_window sender
  cases c with
  | create id x y w h bg title =>
    have hlen : (Command.create id x y w h bg title).encode.length = 15 + title.val.length := by
      simp only [Command.encode, List.length_cons, List.length_append, beBytes, length_leBytes32,
        List.length_nil]
      omega
    rw [hlen] at hbound ⊢
    simp only [Command.encode, List.cons_append, List.append_assoc] at hat
    have hop : buf[i]? = some OP_WIN_CREATE := byte_at hat 0
    have hid : buf[i + 1]? = some id := byte_at hat 1
    have hn : buf[i + 14]? = some (UInt8.ofNat title.val.length) := byte_at hat 14
    have htitle : (buf.drop (i + 15)).take (min title.val.length MAX_TITLE) =
        title.val.take MAX_TITLE := by
      rw [drop_at hat 15]
      show (title.val ++ more).take _ = _
      rw [List.take_append_of_le_length (Nat.min_le_left ..), Nat.min_comm, ← List.take_take,
        List.take_length]
    rw [request_of_parse hop hcreate, parse, run_bind, run_byte, hid, Option.bind_some,
      run_bind, run_rectBytes (drop_at hat 2), Option.bind_some, run_bind, run_le32 (drop_at hat 10),
      Option.bind_some, run_bind, run_byte, hn, Option.bind_some, run_bind, run_upTo, toNat_length,
      if_pos (by omega), Option.bind_some, Command.request]
    by_cases htakes : s.Takes sender id
    · simp only [if_pos htakes]
      rw [run_bind, run_slice (by omega), htitle]
      rfl
    · simp only [if_neg htakes]
      rfl
  | raise id =>
    have hop : buf[i]? = some OP_WIN_RAISE := byte_at hat 0
    have hid : buf[i + 1]? = some id := byte_at hat 1
    rw [request_of_parse hop hraise, parse, run_bind, run_byte, hid]
    rfl
  | move id x y =>
    simp only [Command.encode, List.cons_append, List.append_assoc] at hat
    have hop : buf[i]? = some OP_WIN_MOVE := byte_at hat 0
    have hid : buf[i + 1]? = some id := byte_at hat 1
    rw [request_of_parse hop hmove, parse, run_bind, run_be16 (drop_at hat 2), Option.bind_some,
      run_bind, run_be16 (drop_at hat 4), Option.bind_some, run_bind, run_byte, hid]
    rfl
  | fill id x y w h color =>
    simp only [Command.encode, List.cons_append, List.append_assoc] at hat
    have hop : buf[i]? = some OP_WIN_FILL := byte_at hat 0
    have hid : buf[i + 1]? = some id := byte_at hat 1
    rw [request_of_parse hop hfill, parse, run_bind, run_rectBytes (drop_at hat 2), Option.bind_some,
      run_bind, run_le32 (drop_at hat 10), Option.bind_some, run_bind, run_byte, hid]
    rfl
  | text id x y color scale bytes =>
    have hle : bytes.val.length ≤ MAX_TEXT := bytes.property
    have hlen : (Command.text id x y color scale bytes).encode.length = 12 + bytes.val.length := by
      simp only [Command.encode, List.length_cons, List.length_append, beBytes, length_leBytes32,
        List.length_nil]
      omega
    rw [hlen] at hbound ⊢
    simp only [Command.encode, List.cons_append, List.append_assoc] at hat
    have hop : buf[i]? = some OP_WIN_TEXT := byte_at hat 0
    have hid : buf[i + 1]? = some id := byte_at hat 1
    have hscale : buf[i + 10]? = some scale := byte_at hat 10
    have hn : buf[i + 11]? = some (UInt8.ofNat bytes.val.length) := byte_at hat 11
    have htake : (buf.drop (i + 12)).take bytes.val.length = bytes.val := by
      rw [drop_at hat 12]
      show (bytes.val ++ more).take _ = _
      exact List.take_left
    have hbytes : UpTo.take MAX_TEXT bytes.val = bytes := Subtype.ext (List.take_of_length_le hle)
    rw [request_of_parse hop htext, parse, run_bind, run_byte, hn, Option.bind_some, run_bind,
      toNat_length, Nat.min_eq_left hle, run_slice (by omega), Option.bind_some, run_bind,
      run_be16 (drop_at hat 2), Option.bind_some, run_bind, run_be16 (drop_at hat 4), Option.bind_some,
      run_bind, run_le32 (drop_at hat 6), Option.bind_some, run_bind, run_byte, hscale, Option.bind_some,
      run_bind, run_byte, hid, Option.bind_some, htake, hbytes]
    rfl
  | reset id =>
    have hop : buf[i]? = some OP_WIN_RESET := byte_at hat 0
    have hid : buf[i + 1]? = some id := byte_at hat 1
    rw [request_of_parse hop hreset, parse, run_bind, run_byte, hid]
    rfl
  | compose =>
    have hop : buf[i]? = some OP_COMPOSE := byte_at hat 0
    rw [request_of_parse hop hcompose]
    rfl

end

/-! ## What a window shows -/

/-- A window, but for its place in the stack. -/
structure View where
  rect : Rect
  bg : UInt32
  title : UpTo MAX_TITLE UInt8
  cmds : UpTo MAX_CMDS Cmd

def Window.view (w : Window) : View := ⟨w.rect, w.bg, w.title, w.cmds⟩

/-- What the window of a name shows, if there is one. -/
def Wm.view (m : Wm) (owner : ℕ) (id : UInt8) : Option View :=
  (m.find owner id).map fun i => (m.windows i).view

/-- What a command of its owner does to a window; a window is opened once. -/
def Command.apply (id : UInt8) (v : Option View) : Command → Option View
  | .create id' x y w h bg title =>
    if id' = id ∧ v.isNone then
      some ⟨({ x := x.toNat, y := y.toNat, w := w.toNat, h := h.toNat } : Rect).clampToScreen, bg,
        UpTo.take MAX_TITLE title.val, UpTo.empty⟩
    else v
  | .raise _ => v
  | .move id' x y =>
    if id' = id then v.map fun v =>
      { v with rect := { v.rect with x := x.toNat, y := y.toNat }.clampToScreen } else v
  | .fill id' x y w h color =>
    if id' = id then v.map fun v =>
      { v with cmds := v.cmds.push (.fill x.toNat y.toNat w.toNat h.toNat color) } else v
  | .text id' x y color scale bytes =>
    if id' = id then v.map fun v =>
      { v with cmds := v.cmds.push (.text x.toNat y.toNat (max scale 1).toNat color bytes) } else v
  | .reset id' => if id' = id then v.map fun v => { v with cmds := UpTo.empty } else v
  | .compose => v

namespace Wm

variable {m m' : Wm} {owner sender : ℕ} {id id' : UInt8}

theorem find_congr (h : ∀ k, ((m'.windows k).used ∧ (m'.windows k).owner = owner ∧ (m'.windows k).id = id) ↔
    ((m.windows k).used ∧ (m.windows k).owner = owner ∧ (m.windows k).id = id)) :
    m'.find owner id = m.find owner id := by
  have hp : (fun k => (m'.windows k).used && (m'.windows k).owner == owner && (m'.windows k).id == id) =
      fun k => (m.windows k).used && (m.windows k).owner == owner && (m.windows k).id == id := by
    funext k
    rw [Bool.eq_iff_iff]
    simpa [and_assoc] using h k
  rw [find, find, hp]

/-- An operation leaves what windows of other names show. -/
theorem view_of_change (h : Change m m' sender id') (hne : ¬(owner = sender ∧ id = id')) :
    m'.view owner id = m.view owner id := by
  have hkeep : ∀ k, ((m'.windows k).used ∧ (m'.windows k).owner = owner ∧ (m'.windows k).id = id ↔
      (m.windows k).used ∧ (m.windows k).owner = owner ∧ (m.windows k).id = id) ∧
      ((m.windows k).used ∧ (m.windows k).owner = owner ∧ (m.windows k).id = id →
        m'.windows k = m.windows k) := by
    intro k
    cases h with
    | nothing hwindows =>
      rw [hwindows]
      exact ⟨Iff.rfl, fun _ => rfl⟩
    | opened i w hfind hfree hwindows hused howner hid =>
      rw [hwindows]
      by_cases hk : k = i
      · subst hk
        rw [Function.update_self, howner, hid]
        have hnot : ¬((m.windows k).used ∧ (m.windows k).owner = owner ∧ (m.windows k).id = id) := by
          rw [hfree]
          exact fun hx => nomatch hx.1
        exact ⟨iff_of_false (fun hx => hne ⟨hx.2.1.symm, hx.2.2.symm⟩) hnot, fun hx => absurd hx hnot⟩
      · rw [Function.update_of_ne hk]
        exact ⟨Iff.rfl, fun _ => rfl⟩
    | changed i w hfind hwindows hused howner hid =>
      rw [hwindows]
      by_cases hk : k = i
      · subst hk
        obtain ⟨-, howner', hid'⟩ := find_eq_some hfind
        have hnot : ¬((m.windows k).used ∧ (m.windows k).owner = owner ∧ (m.windows k).id = id) := by
          rw [howner', hid']
          exact fun hx => hne ⟨hx.2.1.symm, hx.2.2.symm⟩
        rw [Function.update_self, howner, hid]
        exact ⟨iff_of_false (fun hx => hne ⟨hx.2.1.symm, hx.2.2.symm⟩) hnot, fun hx => absurd hx hnot⟩
      · rw [Function.update_of_ne hk]
        exact ⟨Iff.rfl, fun _ => rfl⟩
  rw [view, view, find_congr fun k => (hkeep k).1]
  cases hfind : m.find owner id with
  | none => rfl
  | some i =>
    show some (m'.windows i).view = some (m.windows i).view
    rw [(hkeep i).2 (find_eq_some hfind)]

/-- An operation on the window of the name, which it keeps. -/
theorem view_withWindow {f : Window → Window} {g : View → View}
    (hf : ∀ w, (f w).used = w.used ∧ (f w).owner = w.owner ∧ (f w).id = w.id ∧ (f w).view = g w.view) :
    (m.withWindow owner id f).1.view owner id = (m.view owner id).map g := by
  rw [withWindow]
  cases hfind : m.find owner id with
  | none =>
    have hsame : Wm.find { m with rejected := m.rejected + 1 } owner id = m.find owner id := rfl
    rw [view, view, hsame, hfind]
    rfl
  | some i =>
    have hwindows : ∀ k, Function.update m.windows i (f (m.windows i)) k =
        if k = i then f (m.windows i) else m.windows k := fun k => by rw [Function.update_apply]
    have hsame : Wm.find { m with windows := Function.update m.windows i (f (m.windows i)) } owner id =
        m.find owner id := by
      refine find_congr fun k => ?_
      dsimp only
      rw [hwindows]
      split_ifs with hk
      · rw [hk, (hf _).1, (hf _).2.1, (hf _).2.2.1]
      · exact Iff.rfl
    have hshown : (Function.update m.windows i (f (m.windows i)) i).view = g (m.windows i).view := by
      rw [Function.update_self, (hf _).2.2.2]
    rw [view, view, hfind]
    show (Wm.find { m with windows := Function.update m.windows i (f (m.windows i)) } owner id).map
      (fun k => (Function.update m.windows i (f (m.windows i)) k).view) = _
    rw [hsame, hfind]
    exact congrArg some hshown

/-- A window that is opened is found under its name. -/
theorem view_create {rect : Rect} {bg : UInt32} {title : List UInt8} (hfind : m.find owner id = none)
    (hfree : m.free.isSome) : (m.create owner id rect bg title).1.view owner id =
      some ⟨rect.clampToScreen, bg, UpTo.take MAX_TITLE title, UpTo.empty⟩ := by
  obtain ⟨slot, hslot⟩ := Option.isSome_iff_exists.mp hfree
  rw [create, if_neg (by rw [hfind]; exact Bool.false_ne_true), hslot]
  dsimp only
  generalize hw : ({ Window.BLANK with
    used := true, owner := owner, id := id, rect := rect.clampToScreen, bg := bg, z := m.nextZ,
    title := UpTo.take MAX_TITLE title } : Window) = w
  have hname : w.used ∧ w.owner = owner ∧ w.id = id := by
    rw [← hw]
    exact ⟨rfl, rfl, rfl⟩
  have hview : w.view = ⟨rect.clampToScreen, bg, UpTo.take MAX_TITLE title, UpTo.empty⟩ := by
    rw [← hw]
    rfl
  let m' : Wm := { m with windows := Function.update m.windows slot w, nextZ := m.nextZ + 1 }
  show (m'.find owner id).map (fun k => (m'.windows k).view) = _
  have hself : m'.windows slot = w := Function.update_self ..
  cases hfound : m'.find owner id with
  | none =>
    refine absurd hname.2.2 ?_
    rw [← hself]
    exact find_eq_none_iff.mp hfound slot (by rw [hself]; exact hname.1) (by rw [hself]; exact hname.2.1)
  | some k =>
    -- nothing else has the name
    have hk : k = slot := by
      by_contra hk
      have hother : m'.windows k = m.windows k := Function.update_of_ne hk ..
      obtain ⟨hused, howner, hid⟩ := find_eq_some hfound
      rw [hother] at hused howner hid
      exact find_eq_none_iff.mp hfind k hused howner hid
    rw [hk, Option.map_some, hself, hview]

/-- What windows show is in the table. -/
theorem view_of_windows (h : m'.windows = m.windows) : m'.view owner id = m.view owner id := by
  rw [view, view, find, find, h]

end Wm

namespace Server

variable {env : Env} {s : Server} {owner sender : ℕ} {id : UInt8} {n i : ℕ} {buf more : List UInt8}

/-- Commands of others make no difference. -/
theorem view_others (hne : owner ≠ sender) (r : Request) :
    (s.perform env sender r).wm.view owner id = s.wm.view owner id := by
  have hname : ∀ id', ¬(owner = sender ∧ id = id') := fun _ h => hne h.1
  cases r with
  | present => exact Wm.view_of_windows (compose_windows env s)
  | input x y down =>
    rw [perform]
    split_ifs
    · exact Wm.view_of_windows (routeTap_windows env s x y)
    · rfl
  | create id r bg title => exact Wm.view_of_change (Wm.create_change _ _ _ _ _ _) (hname _)
  | raise id => exact Wm.view_of_change (Wm.raise_change _ _ _) (hname _)
  | move id x y => exact Wm.view_of_change (Wm.move_change _ _ _ _ _) (hname _)
  | push id cmd => exact Wm.view_of_change (Wm.push_change _ _ _ _) (hname _)
  | reset id => exact Wm.view_of_change (Wm.reset_change _ _ _) (hname _)
  | _ => rfl

/-- What a command does to what the window of a name shows. -/
theorem view_perform (c : Command) (hroom : c.Opens → s.wm.free.isSome) :
    (s.perform env sender (c.request s sender)).wm.view sender id = c.apply id (s.wm.view sender id) := by
  have hname : ∀ {id'}, ¬id' = id → ¬(sender = sender ∧ id = id') := fun hne h => hne h.2.symm
  cases c with
  | create id' x y w h bg title =>
    simp only [Command.request, perform, Command.apply]
    by_cases hid : id' = id
    · subst hid
      cases hfind : s.wm.find sender id' with
      | some k =>
        have hview : s.wm.view sender id' = some (s.wm.windows k).view := by rw [Wm.view, hfind]; rfl
        rw [Wm.create, if_pos (by rw [hfind]; rfl), hview]
        simp
      | none =>
        have hview : s.wm.view sender id' = none := by rw [Wm.view, hfind]; rfl
        have htakes : s.Takes sender id' := ⟨by rw [hfind]; rfl, hroom trivial⟩
        have htitle : UpTo.take MAX_TITLE (title.val.take MAX_TITLE) = UpTo.take MAX_TITLE title.val :=
          Subtype.ext (by simp [UpTo.take, List.take_take])
        rw [if_pos htakes, hview, if_pos ⟨rfl, rfl⟩, Wm.view_create hfind (hroom trivial), htitle]
    · have hnot : ¬(id' = id ∧ (s.wm.view sender id).isNone) := fun h => hid h.1
      rw [if_neg hnot]
      exact Wm.view_of_change (Wm.create_change _ _ _ _ _ _) (hname hid)
  | raise id' =>
    by_cases hid : id' = id
    · subst hid
      have hz : (s.wm.raise sender id').1.view sender id' = (s.wm.view sender id').map fun v => v :=
        Wm.view_withWindow (f := fun w => { w with z := s.wm.nextZ }) fun w => ⟨rfl, rfl, rfl, rfl⟩
      exact hz.trans Option.map_id'
    · exact Wm.view_of_change (Wm.raise_change _ _ _) (hname hid)
  | move id' x y =>
    simp only [Command.request, perform, Command.apply]
    split_ifs with hid
    · subst hid
      exact Wm.view_withWindow fun w => ⟨rfl, rfl, rfl, rfl⟩
    · exact Wm.view_of_change (Wm.move_change _ _ _ _ _) (hname hid)
  | fill id' x y w h color =>
    simp only [Command.request, perform, Command.apply]
    split_ifs with hid
    · subst hid
      exact Wm.view_withWindow fun w => ⟨rfl, rfl, rfl, rfl⟩
    · exact Wm.view_of_change (Wm.push_change _ _ _ _) (hname hid)
  | text id' x y color scale bytes =>
    simp only [Command.request, perform, Command.apply]
    split_ifs with hid
    · subst hid
      exact Wm.view_withWindow fun w => ⟨rfl, rfl, rfl, rfl⟩
    · exact Wm.view_of_change (Wm.push_change _ _ _ _) (hname hid)
  | reset id' =>
    simp only [Command.request, perform, Command.apply]
    split_ifs with hid
    · subst hid
      exact Wm.view_withWindow fun w => ⟨rfl, rfl, rfl, rfl⟩
    · exact Wm.view_of_change (Wm.reset_change _ _ _) (hname hid)
  | compose => exact Wm.view_of_windows (compose_windows env s)

/-! ## Messages -/

/-- The server takes a command in one turn of its loop. -/
theorem leads_command (c : Command) (hat : buf.drop i = c.encode ++ more)
    (hn : i + c.encode.length ≤ n) (hbuf : n ≤ buf.length) :
    Leads env sender n buf (s, i)
      (s.perform env sender (c.request s sender), i + c.encode.length) := by
  have hpos : 0 < c.encode.length := by cases c <;> exact Nat.succ_pos _
  have hne : c.request s sender ≠ .shutdown := by cases c <;> simp [Command.request]
  refine ⟨by dsimp only; omega, turn_eq_next.mpr ⟨_, _, ?_, hne, rfl, rfl⟩⟩
  exact request_command c hat (hn.trans hbuf) s sender

/-- The server takes the commands of a message one after the other. -/
theorem comes_commands {cs : List Command} (hcs : ∀ c ∈ cs, ¬c.Opens)
    (hat : buf.drop i = cs.flatMap Command.encode ++ more)
    (hn : i + (cs.flatMap Command.encode).length ≤ n) (hbuf : n ≤ buf.length) (s : Server) :
    ∃ s', Relation.ReflTransGen (Leads env sender n buf) (s, i)
        (s', i + (cs.flatMap Command.encode).length) ∧
      s'.wm.view sender id = cs.foldl (Command.apply id) (s.wm.view sender id) := by
  induction cs generalizing s i with
  | nil => exact ⟨s, .refl, rfl⟩
  | cons c cs ih =>
    obtain ⟨hc, hcs⟩ := List.forall_mem_cons.mp hcs
    rw [List.flatMap_cons, List.length_append] at hn
    rw [List.flatMap_cons, List.append_assoc] at hat
    have hleads : Leads env sender n buf (s, i) _ := leads_command c hat (by omega) hbuf
    have hrest : buf.drop (i + c.encode.length) = cs.flatMap Command.encode ++ more := by
      rw [drop_at hat, List.drop_left]
    obtain ⟨s', hcomes, hview⟩ := ih hcs hrest (by omega) (s.perform env sender (c.request s sender))
    refine ⟨s', .head hleads ?_, ?_⟩
    · rw [List.flatMap_cons, List.length_append, ← Nat.add_assoc]
      exact hcomes
    · rw [hview, view_perform c fun h => absurd h hc]
      rfl

/-- A message of commands, of which the first one may open a window. -/
theorem after_commands {m : Delivery} {cs : List Command}
    (hbytes : m.bytes.val = cs.flatMap Command.encode)
    (hfirst : ∀ c ∈ cs.head?, c.Opens → s.wm.free.isSome) (hrest : ∀ c ∈ cs.tail, ¬c.Opens) :
    (after env s m).stop = .done ∧ (after env s m).server.wm.view m.sender id =
      cs.foldl (Command.apply id) (s.wm.view m.sender id) := by
  have hbuf : m.bytes.val.length ≤ (received m.old m.bytes).length := by
    rw [length_received]
    exact m.bytes.property
  have hat : (received m.old m.bytes).drop 0 =
      cs.flatMap Command.encode ++ m.old.toList.drop m.bytes.val.length := by
    rw [received, hbytes, List.drop_zero]
  cases cs with
  | nil =>
    rw [after, serve, if_pos (by rw [hbytes]; rfl)]
    exact ⟨rfl, rfl⟩
  | cons c cs =>
    rw [List.flatMap_cons] at hbytes
    rw [List.flatMap_cons, List.append_assoc] at hat
    replace hrest : ∀ c ∈ cs, ¬c.Opens := hrest
    have hlen : m.bytes.val.length = c.encode.length + (cs.flatMap Command.encode).length := by
      rw [hbytes, List.length_append]
    have hpos : 0 < c.encode.length := by cases c <;> exact Nat.succ_pos _
    have hleads : Leads env m.sender m.bytes.val.length (received m.old m.bytes) (s, 0) _ :=
      leads_command c hat (by omega) hbuf
    have hat' : (received m.old m.bytes).drop (0 + c.encode.length) =
        cs.flatMap Command.encode ++ m.old.toList.drop m.bytes.val.length := by
      rw [drop_at hat, List.drop_left]
    obtain ⟨s', hcomes, hview⟩ : ∃ s', Relation.ReflTransGen
        (Leads env m.sender m.bytes.val.length (received m.old m.bytes))
        (s.perform env m.sender (c.request s m.sender), 0 + c.encode.length)
        (s', 0 + c.encode.length + (cs.flatMap Command.encode).length) ∧
        s'.wm.view m.sender id = cs.foldl (Command.apply id)
          ((s.perform env m.sender (c.request s m.sender)).wm.view m.sender id) :=
      comes_commands hrest hat' (by omega) hbuf _
    have hdecode := decode_of_comes (.head hleads hcomes) (by dsimp only; omega) (Nat.le_add_left _ 0)
    rw [after, serve, if_neg (by omega)]
    dsimp only
    rw [hdecode]
    refine ⟨rfl, ?_⟩
    rw [List.foldl_cons, ← view_perform c (hfirst c rfl)]
    exact hview

/-- A message of another sender. -/
theorem after_others {m : Delivery} (hne : owner ≠ m.sender) :
    (after env s m).server.wm.view owner id = s.wm.view owner id := by
  obtain ⟨j, hcomes⟩ := serve_comes env m.sender s m.bytes m.old
  have hall : ∀ b : Server × ℕ, Relation.ReflTransGen
      (Leads env m.sender m.bytes.val.length (received m.old m.bytes)) (s, 0) b →
        b.1.wm.view owner id = s.wm.view owner id := by
    intro b hb
    induction hb with
    | refl => rfl
    | tail _ hleads ih =>
      obtain ⟨req, len, -, -, hb, -⟩ := turn_eq_next.mp hleads.2
      rw [hb, view_others hne, ih]
  exact hall _ hcomes

end Server

end JungeyOs.Display
