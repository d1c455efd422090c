import JungeyOs.Display.Frame

/-!
# Where a window goes

`OP_WIN_MOVE` (`user/src/gpudrv.rs`, lines 678–686) stores the rectangle of the window clamped to the
screen, so that a window that has been moved past an edge has lost what was outside.

Results:
* `after_move`: what a message with one move does.
* `rectOf_way`: the rectangle after any moves.
* `moves_iff`: when two ways to the same place lead to the same rectangle.
-/

namespace JungeyOs.Display

open Reads Server

/-- A move of a window, and what the buffer held before its message. -/
structure Move where
  x : UInt16
  y : UInt16
  old : Vector UInt8 BUFFER

namespace Move

/-- The bytes of the message. -/
def bytes (id : UInt8) (m : Move) : List UInt8 := OP_WIN_MOVE :: id :: (beBytes m.x ++ beBytes m.y)

theorem length_bytes (id : UInt8) (m : Move) : (m.bytes id).length = 6 := rfl

/-- The message of a move by `owner`. -/
def delivery (owner : ℕ) (id : UInt8) (m : Move) : Delivery where
  sender := owner
  bytes := ⟨m.bytes id, by rw [length_bytes]; decide⟩
  old := m.old

/-- Where the window is to be. -/
def target (m : Move) : ℕ × ℕ := (m.x.toNat, m.y.toNat)

end Move

attribute [ext] Rect

/-- A rectangle after a move (lines 681–683). -/
def Rect.placed (r : Rect) (p : ℕ × ℕ) : Rect := { r with x := p.1, y := p.2 }.clampToScreen

/-- What is left of a side of length `bound` behind the furthest of the places. -/
def room (bound : ℕ) (places : List ℕ) : ℕ := places.foldl (fun left p => min left (bound - p)) bound

theorem room_append (bound p : ℕ) (places : List ℕ) :
    room bound (places ++ [p]) = min (room bound places) (bound - p) := by
  rw [room, List.foldl_append]
  rfl

/-- A window fits into the room that is left exactly if it does so at each place. -/
theorem le_room_iff {bound size : ℕ} (hsize : size ≤ bound) (places : List ℕ) :
    size ≤ room bound places ↔ ∀ p ∈ places, size ≤ bound - p := by
  induction places using List.reverseRecOn with
  | nil => exact iff_of_true hsize nofun
  | append_singleton places p ih =>
    rw [room_append, Nat.le_min, ih, List.forall_mem_append, List.forall_mem_singleton]

theorem size_placed (r : Rect) (p : ℕ × ℕ) :
    (r.placed p).w = min r.w (WIDTH - p.1) ∧ (r.placed p).h = min r.h (HEIGHT - p.2) := by
  simp only [Rect.placed, Rect.clampToScreen]
  omega

/-- The size after any moves: what the least room has left of it. -/
theorem size_moved (r : Rect) {places : List (ℕ × ℕ)} (hne : places ≠ []) :
    (places.foldl Rect.placed r).w = min r.w (room WIDTH (places.map Prod.fst)) ∧
      (places.foldl Rect.placed r).h = min r.h (room HEIGHT (places.map Prod.snd)) := by
  induction places using List.reverseRecOn with
  | nil => exact absurd rfl hne
  | append_singleton places p ih =>
    obtain ⟨hw, hh⟩ := size_placed (places.foldl Rect.placed r) p
    rw [List.foldl_append, List.map_append, List.map_append]
    show ((places.foldl Rect.placed r).placed p).w = min r.w (room WIDTH (_ ++ [p.1])) ∧
      ((places.foldl Rect.placed r).placed p).h = min r.h (room HEIGHT (_ ++ [p.2]))
    rw [hw, hh, room_append, room_append]
    by_cases hnil : places = []
    · subst hnil
      show min r.w (WIDTH - p.1) = min r.w (min WIDTH (WIDTH - p.1)) ∧
        min r.h (HEIGHT - p.2) = min r.h (min HEIGHT (HEIGHT - p.2))
      omega
    · obtain ⟨hw', hh'⟩ := ih hnil
      rw [hw', hh', min_assoc, min_assoc]
      exact ⟨rfl, rfl⟩

/-- The corner after any moves is where the last of them puts it. -/
theorem corner_moved (r : Rect) {places : List (ℕ × ℕ)} {p : ℕ × ℕ} (h : places.getLast? = some p) :
    (places.foldl Rect.placed r).x = min p.1 WIDTH ∧ (places.foldl Rect.placed r).y = min p.2 HEIGHT := by
  obtain ⟨before, rfl⟩ := List.getLast?_eq_some_iff.mp h
  rw [List.foldl_append]
  exact ⟨rfl, rfl⟩

namespace Server

/-! ## Messages -/

section

variable {env : Env} {owner : ℕ} {id : UInt8} {s : Server}

/-- What the arm for moves decodes. -/
theorem run_move (s : Server) (m : Move) :
    ((s.request owner 0).run (m.delivery owner id).buf).2 =
      some (some (.move id m.x.toNat m.y.toNat, 6)) := by
  have hbuf : (m.delivery owner id).buf =
      OP_WIN_MOVE :: id :: (beBytes m.x ++ (beBytes m.y ++ m.old.toList.drop 6)) := rfl
  have hlen : 6 ≤ (m.delivery owner id).buf.length := by
    rw [hbuf]
    simp [beBytes]
  have hop : (m.delivery owner id).buf[0]? = some OP_WIN_MOVE := by
    rw [hbuf]
    rfl
  have hid : (m.delivery owner id).buf[0 + 1]? = some id := by
    rw [hbuf]
    rfl
  have hx : be16 ((m.delivery owner id).buf.drop (0 + 2)) = m.x.toNat := by
    rw [hbuf]
    exact be16_beBytes m.x _
  have hy : be16 ((m.delivery owner id).buf.drop (0 + 4)) = m.y.toNat := by
    rw [hbuf]
    exact be16_beBytes m.y _
  have ha : arm owner OP_WIN_MOVE = some .move := by
    simp [arm, OP_WIN_MOVE, OP_CLEAR, OP_RECT, OP_TEXT, OP_PRESENT, OP_COMPOSE, OP_INPUT, OP_WIN_CREATE,
      OP_WIN_RAISE]
  rw [request_of_parse hop ha, parse, run_bind, run_be16At (by omega), Option.bind_some, run_bind,
    run_be16At (by omega), Option.bind_some, run_bind, run_byte, hid, Option.bind_some, run_pure, hx, hy]
  rfl

/-- A message with one move moves the window of its sender. -/
theorem after_move (s : Server) (m : Move) : (after env s (m.delivery owner id)).server =
    { s with wm := (s.wm.move owner id m.x.toNat m.y.toNat).1 } := by
  have hleads : Leads env owner 6 (m.delivery owner id).buf (s, 0)
      ({ s with wm := (s.wm.move owner id m.x.toNat m.y.toNat).1 }, 6) :=
    ⟨Nat.succ_pos 5, turn_eq_next.mpr ⟨_, 6, run_move s m, by simp, rfl, rfl⟩⟩
  have hdecode : (decode env owner 6 (m.delivery owner id).buf (6 + 1) s 0).2 =
      ({ s with wm := (s.wm.move owner id m.x.toNat m.y.toNat).1 }, .done) :=
    decode_of_comes (.single hleads) le_rfl (Nat.le_refl 6)
  rw [after, serve, if_neg (by simp [Move.delivery, Move.length_bytes])]
  exact congrArg Prod.fst hdecode

/-- The rectangle of a window, if there is one of the name. -/
def rectOf (s : Server) (owner : ℕ) (id : UInt8) : Option Rect :=
  (s.wm.find owner id).map fun i => (s.wm.windows i).rect

/-- The server after moves of a window by its owner. -/
def moved (env : Env) (owner : ℕ) (id : UInt8) (s : Server) (moves : List Move) : Server :=
  moves.foldl (fun s m => (after env s (m.delivery owner id)).server) s

/-- A move leaves the names of the windows alone. -/
theorem find_move (m : Wm) (owner : ℕ) (id : UInt8) (x y : ℕ) :
    (m.move owner id x y).1.find owner id = m.find owner id := by
  rw [Wm.move, Wm.withWindow]
  cases hfind : m.find owner id with
  | none => exact hfind
  | some i =>
    have hsame : ∀ k, (((Function.update m.windows i (Wm.place x y (m.windows i))) k).used &&
        ((Function.update m.windows i (Wm.place x y (m.windows i))) k).owner == owner &&
        ((Function.update m.windows i (Wm.place x y (m.windows i))) k).id == id) =
        ((m.windows k).used && (m.windows k).owner == owner && (m.windows k).id == id) := by
      intro k
      by_cases hk : k = i
      · subst hk
        rw [Function.update_self]
        rfl
      · rw [Function.update_of_ne hk]
    exact (congrArg (fun named => (List.finRange MAX_WINDOWS).find? named) (funext hsame)).trans hfind

theorem rectOf_move (s : Server) (x y : ℕ) :
    rectOf { s with wm := (s.wm.move owner id x y).1 } owner id =
      (s.rectOf owner id).map fun r => r.placed (x, y) := by
  rw [rectOf, rectOf, find_move, Wm.move, Wm.withWindow]
  cases hfind : s.wm.find owner id with
  | none => rfl
  | some i =>
    show some (Function.update s.wm.windows i (Wm.place x y (s.wm.windows i)) i).rect = _
    rw [Function.update_self]
    rfl

theorem rectOf_moved (moves : List Move) : ∀ s : Server,
    (moved env owner id s moves).rectOf owner id =
      (s.rectOf owner id).map fun r => (moves.map Move.target).foldl Rect.placed r := by
  induction moves with
  | nil => exact fun s => Option.map_id'.symm
  | cons m moves ih =>
    intro s
    rw [moved, List.foldl_cons, ← moved, ih, after_move, rectOf_move, Option.map_map]
    rfl

/-! ## Two ways to one place -/

/-- Two ways lead to the same rectangle, of the size `r` has if that is on the screen at `p`. -/
structure Agree (env : Env) (owner : ℕ) (id : UInt8) (s : Server) (r : Rect) (p : ℕ × ℕ)
    (a b : List Move) : Prop where
  same : (s.moved env owner id a).rectOf owner id = (s.moved env owner id b).rectOf owner id
  size : p.1 + r.w ≤ WIDTH → p.2 + r.h ≤ HEIGHT → ∀ way ∈ [a, b], ∀ q,
    (s.moved env owner id way).rectOf owner id = some q → q.w = r.w ∧ q.h = r.h

end

/-- The width and the height that are left of a window of `r` on its way. -/
def leftOf (r : Rect) (way : List Move) : ℕ × ℕ :=
  (min r.w (room WIDTH (way.map fun m => m.x.toNat)), min r.h (room HEIGHT (way.map fun m => m.y.toNat)))

/-- There is room for all of `r` at each place of the way. -/
def Clear (r : Rect) (way : List Move) : Prop :=
  ∀ m ∈ way, r.w ≤ WIDTH - m.x.toNat ∧ r.h ≤ HEIGHT - m.y.toNat

section

variable {env : Env} {owner : ℕ} {id : UInt8} {s : Server} {r : Rect} {p : ℕ × ℕ} {a b way : List Move}

theorem leftOf_eq_iff (hw : r.w ≤ WIDTH) (hh : r.h ≤ HEIGHT) :
    leftOf r way = (r.w, r.h) ↔ Clear r way := by
  rw [leftOf, Prod.mk.injEq, min_eq_left_iff, min_eq_left_iff, le_room_iff hw, le_room_iff hh,
    List.forall_mem_map, List.forall_mem_map]
  exact forall₂_and.symm

/-- The rectangle at the end of a way. -/
theorem rectOf_way (hrect : s.rectOf owner id = some r) (hlast : (way.map Move.target).getLast? = some p) :
    (s.moved env owner id way).rectOf owner id = some
      { x := min p.1 WIDTH, y := min p.2 HEIGHT, w := (leftOf r way).1, h := (leftOf r way).2 } := by
  have hne : way.map Move.target ≠ [] := by
    intro hnil
    rw [hnil] at hlast
    exact nomatch hlast
  obtain ⟨hx, hy⟩ := corner_moved r hlast
  obtain ⟨hw, hh⟩ := size_moved r hne
  rw [List.map_map] at hw hh
  rw [rectOf_moved, hrect, Option.map_some]
  exact congrArg some (Rect.ext hx hy hw hh)

/-- A window that is to be on the screen keeps its size on a way exactly if there is room for it everywhere. -/
theorem size_kept_iff (hrect : s.rectOf owner id = some r)
    (hlast : (way.map Move.target).getLast? = some p) (hw : p.1 + r.w ≤ WIDTH) (hh : p.2 + r.h ≤ HEIGHT) :
    (∀ q, (s.moved env owner id way).rectOf owner id = some q → q.w = r.w ∧ q.h = r.h) ↔ Clear r way := by
  rw [rectOf_way hrect hlast, ← leftOf_eq_iff (by omega) (by omega), Prod.ext_iff]
  constructor
  · exact fun h => h _ rfl
  · rintro h q ⟨⟩
    exact h

/-- Two ways to a place lead to the same rectangle exactly if as much is left of the window on both, and keep
its size exactly if there is room for it everywhere on them. -/
theorem moves_iff (hrect : s.rectOf owner id = some r) (ha : (a.map Move.target).getLast? = some p)
    (hb : (b.map Move.target).getLast? = some p) :
    Agree env owner id s r p a b ↔ leftOf r a = leftOf r b ∧
      (p.1 + r.w ≤ WIDTH → p.2 + r.h ≤ HEIGHT → Clear r a ∧ Clear r b) := by
  have hsame : (s.moved env owner id a).rectOf owner id = (s.moved env owner id b).rectOf owner id ↔
      leftOf r a = leftOf r b := by
    rw [rectOf_way hrect ha, rectOf_way hrect hb, Option.some.injEq, Rect.mk.injEq, Prod.ext_iff]
    simp only [true_and]
  constructor
  · intro h
    refine ⟨hsame.mp h.same, fun hw hh => ⟨?_, ?_⟩⟩
    · exact (size_kept_iff hrect ha hw hh).mp (h.size hw hh a List.mem_cons_self)
    · exact (size_kept_iff hrect hb hw hh).mp (h.size hw hh b (List.mem_cons_of_mem a List.mem_cons_self))
  · rintro ⟨hleft, hclear⟩
    refine ⟨hsame.mpr hleft, fun hw hh way hway => ?_⟩
    rcases List.mem_pair.mp hway with rfl | rfl
    · exact (size_kept_iff hrect ha hw hh).mpr (hclear hw hh).1
    · exact (size_kept_iff hrect hb hw hh).mpr (hclear hw hh).2

end

/-- A window of 100 times 100 pixels that goes to its place at once. -/
def straight : List Move := [{ x := 10, y := 10, old := Vector.replicate BUFFER 0 }]

/-- The same window by way of the right edge. -/
def overTheEdge : List Move :=
  [{ x := 460, y := 10, old := Vector.replicate BUFFER 0 },
    { x := 10, y := 10, old := Vector.replicate BUFFER 0 }]

theorem rect_watched : watched.rectOf 8 1 = some { x := 0, y := 0, w := 100, h := 100 } := by
  decide

/-- A window that goes to its place at once does so at each time. -/
theorem moves_iff_straight :
    Agree responsive 8 1 watched { x := 0, y := 0, w := 100, h := 100 } (10, 10) straight straight :=
  (moves_iff rect_watched rfl rfl).mpr
    ⟨rfl, fun _ _ => ⟨by simp [Clear, straight, WIDTH, HEIGHT], by simp [Clear, straight, WIDTH, HEIGHT]⟩⟩

/-- What was outside the screen is lost. -/
theorem overTheEdge_shrunk : ¬∀ (env : Env) (s : Server) (owner : ℕ) (id : UInt8) (r : Rect) (p : ℕ × ℕ)
    (a b : List Move), s.rectOf owner id = some r → (a.map Move.target).getLast? = some p →
      (b.map Move.target).getLast? = some p → Agree env owner id s r p a b := by
  intro h
  have hsame := (h responsive watched 8 1 _ (10, 10) straight overTheEdge rect_watched rfl rfl).same
  rw [rectOf_moved, rectOf_moved, rect_watched] at hsame
  exact absurd hsame (by decide)

end Server

end JungeyOs.Display
