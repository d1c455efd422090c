import JungeyOs.Display.Paint
import JungeyOs.Lib.Bytes
import JungeyOs.Lib.Reads
import Mathlib.Logic.Relation

/-!
# The display server

Model of `user/src/gpudrv.rs`, lines 472–795: the retained background, the decoding of a
message, and what each command does. The device and the channels of the clients decide
whether a command to them is taken (`Env`); what the server prints is left out.

Results:
* `request_advances`: every command takes at least one byte of the message.
* `turn_eq_next`, `decode_comes`: the loop over the commands of a message.
-/

namespace JungeyOs.Display

open Bytes Painter

/-! ## The protocol (lines 99–136) -/

def OP_CLEAR : UInt8 := 0x01
def OP_RECT : UInt8 := 0x02
def OP_TEXT : UInt8 := 0x03
def OP_PRESENT : UInt8 := 0x04
def OP_INPUT : UInt8 := 0x10
def OP_WIN_CREATE : UInt8 := 0x20
def OP_WIN_RAISE : UInt8 := 0x21
def OP_WIN_MOVE : UInt8 := 0x22
def OP_WIN_TEXT : UInt8 := 0x23
def OP_WIN_FILL : UInt8 := 0x24
def OP_WIN_RESET : UInt8 := 0x25
def OP_CLIENT : UInt8 := 0x30
def OP_COMPOSE : UInt8 := 0x31
def OP_STATS : UInt8 := 0x32
def OP_SHUTDOWN : UInt8 := 0xff
def EV_TAP : UInt8 := 0x40

/-- `usize::MAX`, which the kernel sends as. -/
def KERNEL : ℕ := 2 ^ 64 - 1

def CAP_CLIENT_BASE : ℕ := 5
def MAX_CLIENTS : ℕ := 4

/-- The size of `msg` (line 601). -/
def BUFFER : ℕ := 4096

/-- `be16` (lines 472–474). -/
def be16 (b : List UInt8) : ℕ := ((b.getD 0 0).toNat <<< 8) ||| (b.getD 1 0).toNat

/-- `le32` (lines 476–478). -/
def le32 (b : List UInt8) : UInt32 := UInt32.ofNat (ofLE (b.take 4))

/-! ## The background (lines 480–544) -/

def ROOT_CAPACITY : ℕ := 16384

/-- `root_append` (lines 495–505), on the part of `ROOT` in use. -/
def rootAppend (root bytes : List UInt8) : List UInt8 :=
  if root.length + bytes.length > ROOT_CAPACITY then root else root ++ bytes

/-- One turn of the loop of `root_paint` (lines 515–543): the call, and the bytes after the
command. -/
def rootCommand (buf : List UInt8) : Option (Draw × List UInt8) :=
  match buf with
  | [] => none
  | op :: _ =>
    if op = OP_CLEAR then
      some (.fill 0 0 WIDTH HEIGHT (le32 (buf.drop 1)), buf.drop 5)
    else if op = OP_RECT then
      some (.fill (be16 (buf.drop 1)) (be16 (buf.drop 3)) (be16 (buf.drop 5)) (be16 (buf.drop 7))
        (le32 (buf.drop 9)), buf.drop 13)
    else if op = OP_TEXT then
      let n := (buf.getD 10 0).toNat
      some (.text (be16 (buf.drop 1)) (be16 (buf.drop 3)) (max (buf.getD 9 0).toNat 1)
        (le32 (buf.drop 5)) ((buf.drop 11).take n), buf.drop (11 + n))
    else none

def rootDraws : ℕ → List UInt8 → List Draw
  | 0, _ => []
  | fuel + 1, buf =>
    match rootCommand buf with
    | none => []
    | some (d, rest) => d :: rootDraws fuel rest

/-- `root_paint` (lines 507–544): the calls that it makes. A command takes at least one
byte. -/
def rootPaint (root : List UInt8) : List Draw := rootDraws root.length root

/-! ## The state -/

/-- What the outside answers: the device to the `n`-th command submitted to it, and the
channel of a client to the `n`-th event sent. -/
structure Env where
  device : ℕ → Bool
  accepts : ℕ → Bool

/-- `WINDOWS`, `ROOT`, `Clients`, the framebuffer and `Gpu::frames`. `submits` and `sends`
count the commands and the events so far, and `taps` are the events that were taken, with
the slots they were sent to. -/
structure Server where
  wm : Wm
  root : List UInt8
  clients : UpTo MAX_CLIENTS ℕ
  fb : ℕ → UInt32
  frames : ℕ
  submits : ℕ
  sends : ℕ
  taps : List (ℕ × List UInt8)

namespace Server

/-- `Clients::slot` (lines 553–559). -/
def slot (s : Server) (pid : ℕ) : Option ℕ :=
  (s.clients.val.findIdx? (· = pid)).map (CAP_CLIENT_BASE + ·)

/-- `Gpu::present_rect` (lines 275–312): a transfer, then a flush. -/
def present (env : Env) (s : Server) (r : Rect) : Server :=
  let r := r.clampToScreen
  if r.w = 0 ∨ r.h = 0 then s
  else if !env.device s.submits then { s with submits := s.submits + 1 }
  else if !env.device (s.submits + 1) then { s with submits := s.submits + 2 }
  else { s with submits := s.submits + 2, frames := s.frames + 1 }

/-- The words that `root_paint` and then `Wm::paint` write in a clip. -/
def writes (s : Server) (clip : Clip) : List Write :=
  (rootPaint s.root).flatMap (Draw.writes clip) ++ s.wm.writes clip

/-- `compose` (lines 561–574). -/
def compose (env : Env) (s : Server) : Server :=
  let damage := s.wm.damage.clampToScreen
  if damage.w = 0 ∨ damage.h = 0 then s
  else
    let fb := apply (s.writes (setClip damage)) s.fb
    let s := { s with fb := fb, wm := s.wm.paint.2 }.present env damage
    { s with wm := { s.wm with damage := Rect.EMPTY } }

/-- `route_tap` (lines 765–795). -/
def routeTap (env : Env) (s : Server) (x y : ℕ) : Server :=
  match s.wm.hit x y with
  | none => { s with wm := { s.wm with tapsOnNothing := s.wm.tapsOnNothing + 1 } }
  | some (owner, id, rx, ry) =>
    match s.slot owner with
    | none => { s with wm := { s.wm with tapsOnNothing := s.wm.tapsOnNothing + 1 } }
    | some slot =>
      let ev := [EV_TAP, id, UInt8.ofNat (rx >>> 8), UInt8.ofNat rx, UInt8.ofNat (ry >>> 8),
        UInt8.ofNat ry, 1]
      let taken := env.accepts s.sends
      let s := { s with sends := s.sends + 1 }
      if taken then
        { s with
          taps := s.taps ++ [(slot, ev)]
          wm := { s.wm with tapsRouted := s.wm.tapsRouted + 1 } }
      else s

/-- The server before its first message (lines 577–599), with `fb` in the framebuffer. -/
def start (env : Env) (fb : ℕ → UInt32) : Server :=
  { wm := Wm.new
    root := []
    clients := UpTo.empty
    fb := apply (fill (setClip Rect.screen) 0 0 WIDTH HEIGHT 0xff000000) fb
    frames := 0
    submits := 0
    sends := 0
    taps := [] : Server }.present env Rect.screen

end Server

/-! ## Decoding (lines 611–740) -/

/-- The arms of the dispatch. -/
inductive Arm
  | clear | rect | text | present | input | create | raise | move | fill | label | reset
  | client | stats | shutdown
deriving DecidableEq

/-- The arm that a first byte of a command leads to; background commands, `OP_CLIENT`,
`OP_STATS` and `OP_SHUTDOWN` are for the kernel only. -/
def arm (sender : ℕ) (op : UInt8) : Option Arm :=
  if op = OP_CLEAR ∧ sender = KERNEL then some .clear
  else if op = OP_RECT ∧ sender = KERNEL then some .rect
  else if op = OP_TEXT ∧ sender = KERNEL then some .text
  else if op = OP_PRESENT ∨ op = OP_COMPOSE then some .present
  else if op = OP_INPUT then some .input
  else if op = OP_WIN_CREATE then some .create
  else if op = OP_WIN_RAISE then some .raise
  else if op = OP_WIN_MOVE then some .move
  else if op = OP_WIN_FILL then some .fill
  else if op = OP_WIN_TEXT then some .label
  else if op = OP_WIN_RESET then some .reset
  else if op = OP_CLIENT ∧ sender = KERNEL then some .client
  else if op = OP_STATS ∧ sender = KERNEL then some .stats
  else if op = OP_SHUTDOWN ∧ sender = KERNEL then some .shutdown
  else none

/-- A decoded command. -/
inductive Request
  | clear (bytes : List UInt8)
  | draw (bytes : List UInt8) (damage : Rect)
  | present
  | input (x y : ℕ) (down : Bool)
  | create (id : UInt8) (rect : Rect) (bg : UInt32) (title : List UInt8)
  | raise (id : UInt8)
  | move (id : UInt8) (x y : ℕ)
  | push (id : UInt8) (cmd : Cmd)
  | reset (id : UInt8)
  | client (pid : List ℕ)
  | stats
  | shutdown

open Reads

/-- `be16(&msg[i..])`. -/
def be16At (i : ℕ) : Reads UInt8 ℕ := do
  let b ← slice i 2
  return be16 b

/-- `le32(&msg[i..])`. -/
def le32At (i : ℕ) : Reads UInt8 UInt32 := do
  let b ← slice i 4
  return le32 b

/-- Four `be16` in a row. -/
def rectAt (i : ℕ) : Reads UInt8 Rect := do
  let x ← be16At i
  let y ← be16At (i + 2)
  let w ← be16At (i + 4)
  let h ← be16At (i + 6)
  return { x := x, y := y, w := w, h := h }

namespace Server

/-- `root_append` has room for `len` more bytes. -/
def Keeps (s : Server) (len : ℕ) : Prop := s.root.length + len ≤ ROOT_CAPACITY

instance (s : Server) (len : ℕ) : Decidable (s.Keeps len) :=
  inferInstanceAs (Decidable (_ ≤ _))

/-- The slice that is handed to `root_append`, which looks at it when it has room. -/
def retained (s : Server) (i len : ℕ) : Reads UInt8 (List UInt8) := do
  upTo (i + len)
  if s.Keeps len then slice i len else return []

/-- `create` comes to use the title. -/
def Takes (s : Server) (owner : ℕ) (id : UInt8) : Prop :=
  (s.wm.find owner id).isNone ∧ s.wm.free.isSome

instance (s : Server) (owner : ℕ) (id : UInt8) : Decidable (s.Takes owner id) :=
  inferInstanceAs (Decidable (_ ∧ _))

/-- What an arm reads of the command at `i`, and the length of the command. -/
def parse (s : Server) (sender i : ℕ) : Arm → Reads UInt8 (Request × ℕ)
  | .clear => do
    upTo (i + 5)
    let bytes ← slice i 5
    return (.clear bytes, 5)
  | .rect => do
    let bytes ← s.retained i 13
    let r ← rectAt (i + 1)
    return (.draw bytes r, 13)
  | .text => do
    let n ← byte (i + 10)
    let bytes ← s.retained i (11 + n.toNat)
    let scale ← byte (i + 9)
    let x ← be16At (i + 1)
    let y ← be16At (i + 3)
    let scale := (max scale 1).toNat
    return (.draw bytes { x := x, y := y, w := n.toNat * 8 * scale, h := 8 * scale }, 11 + n.toNat)
  | .present => return (.present, 1)
  | .input => do
    let x ← be16At (i + 1)
    let y ← be16At (i + 3)
    let down ← byte (i + 5)
    return (.input x y (down != 0), 6)
  | .create => do
    let id ← byte (i + 1)
    let r ← rectAt (i + 2)
    let bg ← le32At (i + 10)
    let n ← byte (i + 14)
    upTo (i + 15 + n.toNat)
    let title ← if s.Takes sender id then slice (i + 15) (min n.toNat MAX_TITLE) else pure []
    return (.create id r bg title, 15 + n.toNat)
  | .raise => do
    let id ← byte (i + 1)
    return (.raise id, 2)
  | .move => do
    let x ← be16At (i + 2)
    let y ← be16At (i + 4)
    let id ← byte (i + 1)
    return (.move id x y, 6)
  | .fill => do
    let r ← rectAt (i + 2)
    let color ← le32At (i + 10)
    let id ← byte (i + 1)
    return (.push id (.fill r.x r.y r.w r.h color), 14)
  -- `[op][win][x:2][y:2][color:4][scale][len][bytes]`
  | .label => do
    let raw ← byte (i + 11)
    let bytes ← slice (i + 12) (min raw.toNat MAX_TEXT)
    let x ← be16At (i + 2)
    let y ← be16At (i + 4)
    let color ← le32At (i + 6)
    let scale ← byte (i + 10)
    let id ← byte (i + 1)
    return (.push id (.text x y (max scale 1).toNat color (UpTo.take MAX_TEXT bytes)),
      12 + raw.toNat)
  | .reset => do
    let id ← byte (i + 1)
    return (.reset id, 2)
  | .client => do
    if s.clients.val.length < MAX_CLIENTS then
      let b ← slice (i + 1) 4
      return (.client [(le32 b).toNat], 5)
    else return (.client [], 5)
  | .stats => return (.stats, 1)
  | .shutdown => return (.shutdown, 1)

/-- The command at `i` and its length, if it leads to an arm. -/
def request (s : Server) (sender i : ℕ) : Reads UInt8 (Option (Request × ℕ)) := do
  let op ← byte i
  match arm sender op with
  | none => return none
  | some a => do
    let r ← s.parse sender i a
    return some r

/-- What a command does. -/
def perform (env : Env) (s : Server) (sender : ℕ) : Request → Server
  | .clear bytes => { s with root := rootAppend [] bytes, wm := s.wm.dirtyAll }
  | .draw bytes damage => { s with root := rootAppend s.root bytes, wm := s.wm.dirty damage }
  | .present => s.compose env
  | .input x y down => if down then s.routeTap env x y else s
  | .create id r bg title => { s with wm := (s.wm.create sender id r bg title).1 }
  | .raise id => { s with wm := (s.wm.raise sender id).1 }
  | .move id x y => { s with wm := (s.wm.move sender id x y).1 }
  | .push id cmd => { s with wm := (s.wm.push sender id cmd).1 }
  | .reset id => { s with wm := (s.wm.reset sender id).1 }
  | .client pids => { s with clients := pids.foldl UpTo.push s.clients }
  | .stats => s
  | .shutdown => s

end Server

/-- How the loop over a message ended: at the end of the message or at a command that it
does not know, at `OP_SHUTDOWN`, in a failed check of an index, or out of fuel. -/
inductive Stop
  | done
  | shutdown
  | panicked
  | spent
deriving DecidableEq

/-- One turn of the loop: on to the next command, or out of the loop. -/
inductive Turn
  | next (s : Server) (i : ℕ)
  | stop (how : Stop)

namespace Server

variable (env : Env) (sender : ℕ)

def turn (s : Server) (i : ℕ) : Option (Option (Request × ℕ)) → Turn
  | none => .stop .panicked
  | some none => .stop .done
  | some (some (.shutdown, _)) => .stop .shutdown
  | some (some (r, len)) => .next (s.perform env sender r) (i + len)

/-- The loop from command `i` on, over `n` bytes in `buf` (lines 611–740): the indices it
reads, the server when it ends, and how it ends. -/
def decode (n : ℕ) (buf : List UInt8) : ℕ → Server → ℕ → List ℕ × Server × Stop
  | 0, s, _ => ([], s, .spent)
  | fuel + 1, s, i =>
    if n ≤ i then ([], s, .done)
    else
      let (reads, r) := (s.request sender i).run buf
      match s.turn env sender i r with
      | .stop how => (reads, s, how)
      | .next s' j =>
        let (reads', out) := decode n buf fuel s' j
        (reads ++ reads', out)

/-- The answer to the kernel (lines 746–755). -/
def reply (s : Server) : List UInt8 :=
  [0, UInt8.ofNat s.frames, UInt8.ofNat s.wm.tapsRouted, UInt8.ofNat s.wm.tapsOnNothing,
    UInt8.ofNat s.wm.rejected, UInt8.ofNat s.wm.composes, UInt8.ofNat s.wm.openWindows]

/-- What comes of a message: the server, the answer sent, and how the loop ended. -/
structure Served where
  server : Server
  answer : Option (List UInt8)
  stop : Stop

/-- The end of the loop: the kernel is answered, unless the server died. -/
def conclude (out : Server × Stop) : Served where
  server := out.1
  answer :=
    if sender = KERNEL ∧ (out.2 = .done ∨ out.2 = .shutdown) then some out.1.reply else none
  stop := out.2

/-- What the receive buffer holds after `recv_from` (`syscall.rs`, lines 162–179). -/
def received (old : Vector UInt8 BUFFER) (bytes : UpTo BUFFER UInt8) : List UInt8 :=
  bytes.val ++ old.toList.drop bytes.val.length

/-- One turn of the loop over messages (lines 602–762). A message of no bytes is the input
driver's heartbeat. -/
def serve (s : Server) (bytes : UpTo BUFFER UInt8) (old : Vector UInt8 BUFFER) : List ℕ × Served :=
  let n := bytes.val.length
  if n = 0 then ([], { server := s, answer := none, stop := .done })
  else
    let out := decode env sender n (received old bytes) (n + 1) s 0
    (out.1, conclude sender out.2)

/-- The loop goes from one command of the message to the next. -/
def Leads (n : ℕ) (buf : List UInt8) (a b : Server × ℕ) : Prop :=
  a.2 < n ∧ a.1.turn env sender a.2 ((a.1.request sender a.2).run buf).2 = .next b.1 b.2

/-- From the start of the message, the loop comes to index `i`, with the server at `s'`. -/
def Comes (n : ℕ) (buf : List UInt8) (s s' : Server) (i : ℕ) : Prop :=
  Relation.ReflTransGen (Leads env sender n buf) (s, 0) (s', i)

/-! ## The loop -/

variable {env : Env} {sender n : ℕ} {buf : List UInt8} {s s' : Server} {i j fuel : ℕ}

theorem parse_advances (s : Server) (sender i : ℕ) (a : Arm) :
    (s.parse sender i a).Returns fun r => 0 < r.2 := by
  cases a <;> simp only [parse] <;> repeat' first
    | apply returns_bind; intro _
    | apply returns_pure; simp only; omega
    | split

/-- Every command has at least one byte. -/
theorem request_advances (s : Server) (sender i : ℕ) :
    (s.request sender i).Returns fun r => ∀ req len, r = some (req, len) → 0 < len := by
  apply returns_bind
  intro op
  cases arm sender op with
  | none => exact returns_pure fun _ _ h => by cases h
  | some a =>
    apply (parse_advances s sender i a).bind
    intro r hr
    apply returns_pure
    intro req len h
    obtain rfl := Option.some.inj h
    exact hr

theorem turn_eq_next {r : Option (Option (Request × ℕ))} :
    s.turn env sender i r = .next s' j ↔
      ∃ req len, r = some (some (req, len)) ∧ req ≠ .shutdown ∧ s' = s.perform env sender req ∧
        j = i + len := by
  constructor
  · intro h
    match r with
    | none => cases h
    | some none => cases h
    | some (some (req, len)) =>
      cases req with
      | shutdown => cases h
      | _ =>
        cases h
        exact ⟨_, len, rfl, by simp, rfl, rfl⟩
  · rintro ⟨req, len, rfl, hreq, rfl, rfl⟩
    cases req with
    | shutdown => exact absurd rfl hreq
    | _ => rfl

theorem Leads.advances {a b : Server × ℕ} (h : Leads env sender n buf a b) : a.2 < b.2 := by
  obtain ⟨req, len, hrun, -, -, hj⟩ := turn_eq_next.mp h.2
  have hlen := (request_advances a.1 sender a.2).run hrun req len rfl
  omega

theorem comes_le {a b : Server × ℕ} (h : Relation.ReflTransGen (Leads env sender n buf) a b) :
    a.2 ≤ b.2 := by
  induction h with
  | refl => exact le_rfl
  | tail _ hleads ih => exact ih.trans hleads.advances.le

theorem decode_of_le (h : n ≤ i) : decode env sender n buf (fuel + 1) s i = ([], s, .done) := by
  rw [decode, if_pos h]

theorem decode_of_stop {how : Stop} (hi : i < n)
    (h : s.turn env sender i ((s.request sender i).run buf).2 = .stop how) :
    decode env sender n buf (fuel + 1) s i = (((s.request sender i).run buf).1, s, how) := by
  rw [decode, if_neg (Nat.not_le.mpr hi)]
  simp only [h]

theorem decode_of_leads (h : Leads env sender n buf (s, i) (s', j)) :
    decode env sender n buf (fuel + 1) s i =
      (((s.request sender i).run buf).1 ++ (decode env sender n buf fuel s' j).1,
        (decode env sender n buf fuel s' j).2) := by
  obtain ⟨hi, hturn⟩ := h
  rw [decode, if_neg (Nat.not_le.mpr hi)]
  simp only [hturn]

/-- The loop ends in a state that it comes to. -/
theorem decode_comes (h : n ≤ i + fuel) :
    ∃ j, Relation.ReflTransGen (Leads env sender n buf) (s, i)
      ((decode env sender n buf (fuel + 1) s i).2.1, j) := by
  induction fuel generalizing s i with
  | zero =>
    have hi : n ≤ i := h
    rw [decode_of_le hi]
    exact ⟨i, .refl⟩
  | succ fuel ih =>
    by_cases hi : n ≤ i
    · rw [decode_of_le hi]
      exact ⟨i, .refl⟩
    · cases hturn : s.turn env sender i ((s.request sender i).run buf).2 with
      | stop how =>
        rw [decode_of_stop (Nat.not_le.mp hi) hturn]
        exact ⟨i, .refl⟩
      | next s' j =>
        have hleads : Leads env sender n buf (s, i) (s', j) := ⟨Nat.not_le.mp hi, hturn⟩
        have hlt := hleads.advances
        obtain ⟨k, hk⟩ := ih (s := s') (i := j) (by simp only at hlt; omega)
        rw [decode_of_leads hleads]
        exact ⟨k, .head hleads hk⟩

end Server

end JungeyOs.Display
