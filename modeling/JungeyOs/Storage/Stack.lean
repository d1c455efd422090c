import JungeyOs.Blkdrv
import JungeyOs.Storage.Latest

/-!
# The storage stack

Any number of callers of `kernel/src/blk.rs`, the driver process (`user/src/blkdrv.rs`, lines 314–376)
with its buffer, and the device behind its queue, as one system. A call takes effect when it is sent:
in this order the calls return what they would return one after another on the device of `Blk`, of which
everything that stores something is a computation.

Results:
* `Inv.step`: what every step keeps of the messages, and of what the device has carried out.
* `replay_eq`: what the calls return one after another.
* `calls_explained`: what the callers see, and what is on the disk.
-/

namespace JungeyOs.Storage

open JungeyOs.Bytes
open RoundTrip (REPLY_HEADER header reply tagOf)
open Virtio (Kind Request)
open Blkdrv (OP_INFO OP_READ OP_WRITE OP_SHUTDOWN HEADER REQ received sectorOf)

/-! ## The calls (`blk.rs`, lines 152–199) -/

/-- `info`, `read_sector`, `write_sector` and `shutdown`. -/
inductive Op
  | info
  | read (sector : UInt64)
  | write (sector : UInt64) (data : Sector)
  | shutdown
  deriving DecidableEq

namespace Op

def code : Op → UInt8
  | .info => OP_INFO
  | .read _ => OP_READ
  | .write _ _ => OP_WRITE
  | .shutdown => OP_SHUTDOWN

def sector : Op → UInt64
  | .read sector => sector
  | .write sector _ => sector
  | _ => 0

def payload : Op → List UInt8
  | .write _ data => data.toList
  | _ => []

/-- The message that the call hands to `round_trip`. -/
def message (op : Op) (tag : UInt32) : List UInt8 := header op.code tag op.sector ++ op.payload

/-- What the call makes of what `round_trip` returned: the bytes that it hands to its caller. -/
def result : Op → Except String (List UInt8) → Except String (List UInt8)
  | .info, .ok reply =>
    if reply.length < REPLY_HEADER + 8 then .error "short info reply"
    else .ok ((reply.drop REPLY_HEADER).take 8)
  | .read _, .ok reply =>
    if reply.length < REPLY_HEADER + SECTOR_SIZE then .error "short read reply"
    else .ok ((reply.drop REPLY_HEADER).take SECTOR_SIZE)
  | .write _ _, .ok _ => .ok []
  | .shutdown, .ok _ => .ok []
  | _, .error e => .error e

/-- What the driver hands to the device for the call. -/
def request : Op → Option Request
  | .read sector => some ⟨.read, sector.toNat, Vector.replicate SECTOR_SIZE 0⟩
  | .write sector data => some ⟨.write, sector.toNat, data⟩
  | _ => none

/-- The call as a computation on the device that `Blk` knows. -/
def exec : Op → Blk (List UInt8)
  | .info => fun d => (.ok (leList 8 d.capacity), d)
  | .read sector => do
    let data ← Blk.readSector sector.toNat
    pure data.toList
  | .write sector data => do
    Blk.writeSector sector.toNat data
    pure []
  | .shutdown => pure []

end Op

/-- Calls that are made one after another. -/
def replay : List Op → Blk (List (Except String (List UInt8)))
  | [] => pure []
  | op :: ops => do
    let result ← Blk.attempt op.exec
    let results ← replay ops
    pure (result :: results)

/-- What a call returned agrees with what it returns in a replay. Only a call that goes to the disk
fails there. -/
def Agrees (op : Op) (seen : Except String (List UInt8)) (result : Option (Except String (List UInt8))) :
    Prop :=
  match seen with
  | .ok bytes => result = some (.ok bytes)
  | .error _ => op.request.isSome → ∃ e, result = some (.error e)

/-! ## The system -/

/-- The `k`-th call is `ops k`. -/
structure Wiring where
  ops : ℕ → Op
  capacity : ℕ
  disk : Disk

/-- `requested` says that the driver has handed its message to the device; `handed` is the call that was
handed to it last. -/
structure Stack where
  blk : RoundTrip.Sys
  dev : Virtio.Sys
  req : Vector UInt8 REQ
  requested : Bool
  running : Bool
  handed : Option ℕ

inductive Act
  | attach
  | draw
  | acquire (k : ℕ)
  | send (k now : ℕ)
  | poll (k now : ℕ)
  /-- the driver receives a message -/
  | recv
  /-- it looks at the message -/
  | serve
  /-- it answers the message that it had handed to the device -/
  | answer
  /-- `recv` fails, and the driver returns -/
  | leave
  /-- the driver or the device goes on with the request -/
  | device (a : Virtio.Act)

/-- `a` is not a new request. -/
def goesOn : Virtio.Act → Bool
  | .request _ => false
  | _ => true

theorem REQ_pos : 0 < REQ := by decide

namespace Stack

variable (w : Wiring)

/-- The operation of the message in the buffer. -/
def op (s : Stack) : UInt8 := s.req.get ⟨0, REQ_pos⟩

/-- The message of `n` bytes that is in the buffer (lines 338–375). -/
def serve (s : Stack) (k n : ℕ) : Option Stack :=
  let req := s.req.toList
  let op := s.op
  let sector := sectorOf req
  if n < HEADER then (s.blk.step .driverSkip).map fun blk => { s with blk := blk }
  else if op = OP_INFO then
    (s.blk.step (.driverAnswer 0 (leList 8 w.capacity))).map fun blk => { s with blk := blk }
  else if op = OP_READ then
    (s.dev.step (.request ⟨.read, sector, Vector.replicate SECTOR_SIZE 0⟩)).map fun dev =>
      { s with dev := dev, requested := true, handed := some k }
  else if op = OP_WRITE then
    (s.dev.step (.request ⟨.write, sector, slice s.req HEADER SECTOR_SIZE⟩)).map fun dev =>
      { s with dev := dev, requested := true, handed := some k }
  else if op = OP_SHUTDOWN then
    (s.blk.step (.driverAnswer 0 [])).map fun blk => { s with blk := blk, running := false }
  else (s.blk.step (.driverAnswer 1 [])).map fun blk => { s with blk := blk }

def step (s : Stack) : Act → Option Stack
  | .attach => (s.blk.step .attach).map fun blk => { s with blk := blk }
  | .draw =>
    let op := w.ops s.blk.calls
    (s.blk.step (.draw op.code op.sector op.payload)).map fun blk => { s with blk := blk }
  | .acquire k => (s.blk.step (.acquire k)).map fun blk => { s with blk := blk }
  | .send k now => (s.blk.step (.send k now)).map fun blk => { s with blk := blk }
  | .poll k now => (s.blk.step (.poll k now)).map fun blk => { s with blk := blk }
  | .recv =>
    if s.running then
      (s.blk.step .driverRecv).map fun blk =>
        { s with blk := blk, req := received s.req (blk.busy.elim [] (·.2)) }
    else none
  | .serve =>
    match s.requested, s.blk.busy with
    | false, some m => s.serve w m.1 (min m.2.length REQ)
    | _, _ => none
  | .answer =>
    match s.requested, s.dev.pc, s.dev.log with
    | true, .idle, r :: _ =>
      (s.blk.step (.driverAnswer (Blkdrv.Driver.status r.ok) (if r.req.kind = .read then r.data.toList else []))).map
        fun blk => { s with blk := blk, requested := false }
    | _, _, _ => none
  | .leave => if s.blk.busy.isSome then none else some { s with running := false }
  | .device a =>
    if goesOn a then (s.dev.step a).map fun dev => { s with dev := dev } else none

/-- Nothing has been asked of the driver. -/
structure Init (s : Stack) : Prop where
  blk : s.blk = RoundTrip.Sys.init
  dev : s.dev.Init
  disk : s.dev.disk = w.disk
  requested : s.requested = false
  handed : s.handed = none

/-- A request is made when the device has nothing left to write for an earlier one, and the device does
not have sectors beyond its capacity. -/
def Sound (s : Stack) : Act → Prop
  | .serve => s.op = OP_READ ∨ s.op = OP_WRITE → s.dev.Settled
  | .device a => Virtio.Within w.capacity s.dev a
  | _ => True

end Stack

/-! ## What the device has carried out -/

/-- The disk after a call that the device has carried out or not. -/
def carry (op : Op) (carried : Bool) (d : Disk) : Disk :=
  match op, carried with
  | .write sector data, true => Function.update d sector.toNat data
  | _, _ => d

/-- The disk after calls of which `carried` were carried out. -/
def diskAfter (w : Wiring) (carried : ℕ → Bool) (calls : List ℕ) : Disk :=
  calls.foldl (fun d k => carry (w.ops k) (carried k) d) w.disk

namespace Stack

/-- The calls that the driver has answered. -/
def processed (s : Stack) : List ℕ := s.blk.consumed ++ s.blk.replies.map Prod.fst

/-- The calls that the driver has answered or handed to the device. -/
def past (s : Stack) : List ℕ :=
  s.processed ++ if s.requested then s.blk.busy.toList.map Prod.fst else []

/-- The calls `carried` were carried out, and what is on the disk and what the driver has answered to the
calls of the past come from them. -/
structure Explained (w : Wiring) (past : List ℕ) (answer : ℕ → Option (List UInt8)) (disk : Disk)
    (carried : ℕ → Bool) : Prop where
  disk : diskAfter w carried past = disk
  within : ∀ k req, carried k = true → (w.ops k).request = some req → req.sector < w.capacity
  answers : ∀ l k l', past = l ++ k :: l' → ∀ bytes, answer k = some bytes → bytes.head? = some 0 →
    ∀ req, (w.ops k).request = some req → carried k = true ∧
      (req.kind = .read → bytes.drop REPLY_HEADER = (diskAfter w carried l req.sector).toList)

/-- The call that was handed to the device last is the last one that goes to the disk. -/
def HandedLast (w : Wiring) (handed : Option ℕ) (past : List ℕ) : Prop :=
  match handed with
  | none => ∀ k ∈ past, (w.ops k).request = none
  | some k => ∃ l l', past = l ++ k :: l' ∧ ∀ j ∈ l', (w.ops j).request = none

structure Inv (w : Wiring) (s : Stack) : Prop where
  blk : RoundTrip.Inv s.blk
  dev : Virtio.Held w.capacity s.dev
  whole : s.blk.pipeline = s.blk.sent
  drawn : ∀ k tag msg, s.blk.pc k = .drawn tag msg ∨ s.blk.pc k = .holding tag msg →
    msg = (w.ops k).message tag
  msgs : ∀ m ∈ s.blk.busy.toList ++ s.blk.requests, m.2 = (w.ops m.1).message (tagOf m.1)
  answered : ∀ k bytes, s.blk.answer k = some bytes → ∃ st data,
    bytes = reply st ((w.ops k).message (tagOf k)) data ∧
      (w.ops k = .info → data = leList 8 w.capacity)
  went : ∀ k bytes, s.blk.pc k = .returned (.ok bytes) → bytes.head? = some 0
  buffer : ∀ m, s.blk.busy = some m → ∃ old, s.req = received old m.2
  asked : s.dev.asked = s.handed.bind fun k => (w.ops k).request
  requested : s.requested = true → ∃ m, s.blk.busy = some m ∧ s.handed = some m.1
  handed : HandedLast w s.handed s.past
  explained : ∃ carried, Explained w s.past s.blk.answer s.dev.disk carried

section

variable {w : Wiring} {s s' : Stack} {m : ℕ × List UInt8} {blk : RoundTrip.Sys}

theorem Init.inv (h : Init w s) : Inv w s := by
  have hpast : s.past = [] := by
    rw [past, processed, h.blk, h.requested]
    rfl
  refine ⟨?_, h.dev.held, ?_, ?_, ?_, ?_, ?_, ?_, ?_, ?_, ?_, fun _ => false, ?_⟩
  · rw [h.blk]
    exact RoundTrip.inv_init
  · rw [h.blk]
    rfl
  · rw [h.blk]
    rintro k tag msg (hk | hk) <;> cases hk
  · rw [h.blk]
    intro m hm
    cases hm
  · rw [h.blk]
    intro k bytes hk
    cases hk
  · rw [h.blk]
    intro k bytes hk
    cases hk
  · rw [h.blk]
    intro m hm
    cases hm
  · obtain ⟨hpc, -, -, -, -, -, -, -, hlog⟩ := h.dev
    rw [Virtio.Sys.asked, hpc, hlog, h.handed]
    rfl
  · rw [h.requested]
    intro hr
    cases hr
  · rw [h.handed, hpast]
    intro k hk
    cases hk
  · rw [hpast, h.disk]
    exact ⟨rfl, fun k req hk => Bool.noConfusion hk, fun l k l' hl => absurd hl (by simp)⟩

/-- The message that the driver has is not answered. -/
theorem Inv.unanswered (h : Inv w s) (hm : s.blk.busy = some m) :
    m.1 ∉ s.processed ∧ s.blk.answer m.1 = none := by
  have hnodup := h.blk.pipeline_nodup
  rw [RoundTrip.Sys.pipeline, hm, ← List.append_assoc] at hnodup
  have hnot : m.1 ∉ s.processed := fun hmem =>
    (List.nodup_append.mp hnodup).2.2 m.1 hmem m.1 (by simp) rfl
  refine ⟨hnot, ?_⟩
  cases hans : s.blk.answer m.1 with
  | none => rfl
  | some bytes =>
    refine absurd ?_ hnot
    rcases h.blk.answered _ _ hans with hc | hr
    · exact List.mem_append_left _ hc
    · exact List.mem_append_right _ (List.mem_map.mpr ⟨_, hr, rfl⟩)

theorem Inv.not_requested (h : Inv w s) (hbusy : s.blk.busy = none) : s.requested = false := by
  cases hr : s.requested with
  | false => rfl
  | true =>
    obtain ⟨m, hm, -⟩ := h.requested hr
    rw [hbusy] at hm
    cases hm

theorem past_of_not_requested (hrequested : s.requested = false) : s.past = s.processed := by
  rw [past, hrequested]
  exact List.append_nil _

/-! ## The callers -/

/-- What the callers do leaves what the driver has, and what it has answered. -/
theorem Inv.callers (h : Inv w s) (hinv : RoundTrip.Inv blk) (hbusy : blk.busy = s.blk.busy)
    (hanswer : blk.answer = s.blk.answer)
    (hprocessed : blk.consumed ++ blk.replies.map Prod.fst = s.processed)
    (hwhole : blk.pipeline = blk.sent)
    (hdrawn : ∀ k tag msg, blk.pc k = .drawn tag msg ∨ blk.pc k = .holding tag msg →
      msg = (w.ops k).message tag)
    (hmsgs : ∀ m ∈ blk.requests, m.2 = (w.ops m.1).message (tagOf m.1))
    (hwent : ∀ k bytes, blk.pc k = .returned (.ok bytes) → bytes.head? = some 0) :
    Inv w { s with blk := blk } := by
  have hpast : ({ s with blk := blk } : Stack).past = s.past := by
    rw [past, past, processed, hprocessed, hbusy]
  refine ⟨hinv, h.dev, hwhole, hdrawn, fun m hm => ?_, ?_, hwent, ?_, h.asked, ?_, ?_, ?_⟩
  · rw [hbusy] at hm
    rcases List.mem_append.mp hm with hm | hm
    · exact h.msgs m (List.mem_append_left _ hm)
    · exact hmsgs m hm
  · rw [hanswer]
    exact h.answered
  · rw [hbusy]
    exact h.buffer
  · rw [hbusy]
    exact h.requested
  · rw [hpast]
    exact h.handed
  · rw [hpast, hanswer]
    exact h.explained

/-- A call that goes on to `pc` leaves the messages of the other calls, and what they returned. -/
theorem Inv.goes (h : Inv w s) (k : ℕ) (pc : RoundTrip.Pc)
    (hdrawn : ∀ tag msg, pc = .drawn tag msg ∨ pc = .holding tag msg → msg = (w.ops k).message tag)
    (hwent : ∀ bytes, pc = .returned (.ok bytes) → bytes.head? = some 0) :
    (∀ j tag msg, Function.update s.blk.pc k pc j = .drawn tag msg ∨
      Function.update s.blk.pc k pc j = .holding tag msg → msg = (w.ops j).message tag) ∧
    ∀ j bytes, Function.update s.blk.pc k pc j = .returned (.ok bytes) → bytes.head? = some 0 := by
  constructor
  · exact RoundTrip.forall_update
      (P := fun j q => ∀ tag msg, q = .drawn tag msg ∨ q = .holding tag msg → msg = (w.ops j).message tag)
      hdrawn fun j _ => h.drawn j
  · exact RoundTrip.forall_update
      (P := fun _ q => ∀ bytes, q = .returned (.ok bytes) → bytes.head? = some 0) hwent fun j _ => h.went j

/-- A call goes on to `pc`, and nothing else changes but the lock. -/
theorem Inv.moved (h : Inv w s) {k : ℕ} {pc : RoundTrip.Pc} {inFlight : Bool}
    (hinv : RoundTrip.Inv { s.blk with pc := Function.update s.blk.pc k pc, inFlight := inFlight })
    (hdrawn : ∀ tag msg, pc = .drawn tag msg ∨ pc = .holding tag msg → msg = (w.ops k).message tag)
    (hwent : ∀ bytes, pc = .returned (.ok bytes) → bytes.head? = some 0) :
    Inv w { s with blk := { s.blk with pc := Function.update s.blk.pc k pc, inFlight := inFlight } } := by
  obtain ⟨hdrawn', hwent'⟩ := h.goes k pc hdrawn hwent
  exact h.callers hinv rfl rfl rfl h.whole hdrawn' (fun m hm => h.msgs m (List.mem_append_right _ hm)) hwent'

theorem Inv.draw (h : Inv w s) (hfew : s.blk.calls + 1 < 2 ^ 32)
    (hs : s.blk.step (.draw (w.ops s.blk.calls).code (w.ops s.blk.calls).sector
      (w.ops s.blk.calls).payload) = some blk) : Inv w { s with blk := blk } := by
  have hcalls : blk.calls = s.blk.calls + 1 := by
    cases hs
    rfl
  have hinv : RoundTrip.Inv blk := RoundTrip.inv_step h.blk (by rw [hcalls]; exact hfew) hs
  have htag : s.blk.nextTag = tagOf s.blk.calls := h.blk.nextTag
  cases hs
  obtain ⟨hdrawn, hwent⟩ := h.goes s.blk.calls
    (.drawn s.blk.nextTag ((w.ops s.blk.calls).message s.blk.nextTag))
    (by
      rintro tag msg (heq | heq)
      · cases heq
        rfl
      · cases heq)
    (by rintro _ heq; cases heq)
  exact h.callers hinv rfl rfl rfl h.whole hdrawn (fun m hm => h.msgs m (List.mem_append_right _ hm)) hwent

theorem Inv.acquire (h : Inv w s) {k : ℕ} (hfew : s.blk.calls < 2 ^ 32)
    (hs : s.blk.step (.acquire k) = some blk) : Inv w { s with blk := blk } := by
  have hinv : blk.calls = s.blk.calls → RoundTrip.Inv blk := fun hcalls =>
    RoundTrip.inv_step h.blk (by rw [hcalls]; exact hfew) hs
  simp only [RoundTrip.Sys.step] at hs
  split at hs
  · rename_i tag msg hk
    split_ifs at hs
    cases hs
    refine h.moved (hinv rfl) (fun tag' msg' heq => ?_) (by rintro _ heq; cases heq)
    rcases heq with heq | heq
    · cases heq
    · cases heq
      exact h.drawn k tag msg (.inl hk)
  · cases hs

theorem Inv.send (h : Inv w s) {k now : ℕ} (hfew : s.blk.calls < 2 ^ 32)
    (hs : s.blk.step (.send k now) = some blk) : Inv w { s with blk := blk } := by
  have hinv : blk.calls = s.blk.calls → RoundTrip.Inv blk := fun hcalls =>
    RoundTrip.inv_step h.blk (by rw [hcalls]; exact hfew) hs
  simp only [RoundTrip.Sys.step] at hs
  split at hs
  · rename_i tag msg hk
    have hmsg : msg = (w.ops k).message tag := h.drawn k tag msg (.inr hk)
    have htag : tag = tagOf k := by
      have htagged := h.blk.tagged k
      rw [hk] at htagged
      exact htagged.1
    split_ifs at hs
    · cases hs
      obtain ⟨hdrawn, hwent⟩ := h.goes k (.waiting tag (now + RoundTrip.REPLY_TIMEOUT_TICKS))
        (by rintro _ _ (heq | heq) <;> cases heq) (by rintro _ heq; cases heq)
      refine h.callers (hinv rfl) rfl rfl rfl ?_ hdrawn (fun m hm => ?_) hwent
      · have hwhole := congrArg (· ++ [k]) h.whole
        simpa only [RoundTrip.Sys.pipeline, RoundTrip.Sys.goto, List.map_append, List.append_assoc,
          List.map_cons, List.map_nil] using hwhole
      · rcases List.mem_append.mp hm with hm | hm
        · exact h.msgs m (List.mem_append_right _ hm)
        · rw [List.mem_singleton.mp hm, hmsg, htag]
    · cases hs
      exact h.moved (hinv rfl) (by rintro _ _ (heq | heq) <;> cases heq) (by rintro _ heq; cases heq)
  · cases hs

theorem Inv.poll (h : Inv w s) {k now : ℕ} (hfew : s.blk.calls < 2 ^ 32)
    (hs : s.blk.step (.poll k now) = some blk) : Inv w { s with blk := blk } := by
  have hinv : RoundTrip.Inv blk := by
    refine RoundTrip.inv_step h.blk ?_ hs
    simp only [RoundTrip.Sys.step] at hs
    split at hs
    · split at hs
      · cases hs
        unfold RoundTrip.Sys.receive
        dsimp only
        split_ifs <;> exact hfew
      · cases hs
        split_ifs <;> exact hfew
    · cases hs
  simp only [RoundTrip.Sys.step] at hs
  split at hs
  · rename_i tag deadline hk
    split at hs
    · rename_i m rest hm
      have hprocessed : s.blk.consumed ++ [m.1] ++ rest.map Prod.fst = s.processed := by
        rw [processed, hm, List.append_assoc]
        rfl
      have hwhole : s.blk.consumed ++ [m.1] ++ (rest.map Prod.fst ++
          (s.blk.busy.toList.map Prod.fst ++ s.blk.requests.map Prod.fst)) = s.blk.sent :=
        (RoundTrip.Inv.pipeline_take hm).trans h.whole
      have hreqs : ∀ m ∈ s.blk.requests, m.2 = (w.ops m.1).message (tagOf m.1) := fun m hm =>
        h.msgs m (List.mem_append_right _ hm)
      have hreturned : ∀ r, (∀ bytes, r = .ok bytes → bytes.head? = some 0) →
          (∀ j tag msg, Function.update s.blk.pc k (.returned r) j = .drawn tag msg ∨
            Function.update s.blk.pc k (.returned r) j = .holding tag msg → msg = (w.ops j).message tag) ∧
          ∀ j bytes, Function.update s.blk.pc k (.returned r) j = .returned (.ok bytes) →
            bytes.head? = some 0 := by
        intro r hr
        exact h.goes k (.returned r) (by rintro _ _ (heq | heq) <;> cases heq) fun bytes heq =>
          hr bytes (by cases heq; rfl)
      cases hs
      unfold RoundTrip.Sys.receive at hinv ⊢
      dsimp only at hinv ⊢
      by_cases htag : RoundTrip.replyTag m.2 ≠ tag
      · rw [if_pos htag] at hinv ⊢
        exact h.callers hinv rfl rfl hprocessed hwhole h.drawn hreqs h.went
      · rw [if_neg htag] at hinv ⊢
        by_cases hzero : m.2.head? = some 0
        · rw [if_pos hzero] at hinv ⊢
          obtain ⟨hdrawn, hwent⟩ := hreturned (.ok m.2) fun bytes heq => by cases heq; exact hzero
          exact h.callers hinv rfl rfl hprocessed hwhole hdrawn hreqs hwent
        · rw [if_neg hzero] at hinv ⊢
          obtain ⟨hdrawn, hwent⟩ := hreturned (.error "driver reported an error")
            (by rintro _ heq; cases heq)
          exact h.callers hinv rfl rfl hprocessed hwhole hdrawn hreqs hwent
    · cases hs
      split_ifs at hinv ⊢
      · exact h.moved hinv (by rintro _ _ (heq | heq) <;> cases heq) (by rintro _ heq; cases heq)
      · exact h
  · cases hs

/-! ## The driver -/

/-- What the driver makes of a message in its buffer. -/
theorem message_received (op : Op) (tag : UInt32) (old : Vector UInt8 REQ) :
    HEADER ≤ min (op.message tag).length REQ ∧ (received old (op.message tag))[0] = op.code ∧
      sectorOf (received old (op.message tag)).toList = op.sector.toNat ∧
      ∀ sector data, op = .write sector data →
        slice (received old (op.message tag)) HEADER SECTOR_SIZE = data := by
  have hheader : (header op.code tag op.sector).length = HEADER := by
    rw [header, List.length_cons, List.length_append, length_leList, length_leList]
    rfl
  have hlen : HEADER ≤ (op.message tag).length := by
    rw [Op.message, List.length_append, hheader]
    exact Nat.le_add_right ..
  obtain ⟨hhead, hsector, -⟩ := Blkdrv.header_received old hlen
  refine ⟨Nat.le_min.mpr ⟨hlen, by decide⟩, ?_, ?_, ?_⟩
  · exact (Option.some.inj hhead).symm
  · have hdrop : ((op.message tag).drop 5).take 8 = leList 8 op.sector.toNat := by
      rw [Op.message, header, List.cons_append, List.drop_succ_cons, List.append_assoc,
        List.drop_left' (length_leList 4 _), List.take_left' (length_leList 8 _)]
    rw [hsector, sectorOf, hdrop, ofLE_leList 8 _ op.sector.toNat_lt]
  · rintro sector data rfl
    have hpayload : (Op.write sector data).message tag =
        header OP_WRITE tag sector ++ data.toList := rfl
    have hheader' : (header OP_WRITE tag sector).length = HEADER := hheader
    have hdata : data.toList.length = SECTOR_SIZE := Vector.length_toList
    have hrange : HEADER + SECTOR_SIZE ≤ ((Op.write sector data).message tag).length := by
      rw [hpayload, List.length_append, hdata]
      exact Nat.add_le_add_right hheader.ge _
    apply Vector.toList_inj.mp
    rw [toList_slice _ (by decide), Blkdrv.range_received _ _ (by decide) hrange, hpayload,
      List.drop_left' hheader', List.take_of_length_le hdata.le]

theorem driverAnswer_eq (hm : s.blk.busy = some m) (st : UInt8) (data : List UInt8) :
    s.blk.step (.driverAnswer st data) = some { s.blk with
      busy := none
      replies := s.blk.replies ++ [(m.1, reply st m.2 data)]
      answer := Function.update s.blk.answer m.1 (some (reply st m.2 data)) } := by
  rw [RoundTrip.Sys.step, hm]
  rfl

theorem diskAfter_congr {carried carried' : ℕ → Bool} {l : List ℕ} (h : ∀ k ∈ l, carried k = carried' k) :
    diskAfter w carried l = diskAfter w carried' l :=
  List.foldl_ext _ _ _ fun d k hk => by rw [h k hk]

theorem diskAfter_update (carried : ℕ → Bool) {k : ℕ} (b : Bool) {l : List ℕ} (hk : k ∉ l) :
    diskAfter w (Function.update carried k b) l = diskAfter w carried l :=
  diskAfter_congr fun _ hj => Function.update_of_ne (ne_of_mem_of_not_mem hj hk) _ _

theorem diskAfter_concat (carried : ℕ → Bool) (l : List ℕ) (k : ℕ) :
    diskAfter w carried (l ++ [k]) = carry (w.ops k) (carried k) (diskAfter w carried l) :=
  List.foldl_concat ..

/-- A call that does not go to the disk leaves the disk. -/
theorem carry_of_request_eq_none {op : Op} (h : op.request = none) (carried : Bool) (d : Disk) :
    carry op carried d = d := by
  cases op with
  | info => rfl
  | shutdown => rfl
  | read sector => cases h
  | write sector data => cases h

theorem eq_or_mem_of_concat {l l' p : List ℕ} {a b : ℕ} (h : p ++ [b] = l ++ a :: l') :
    (l = p ∧ a = b) ∨ ∃ l'', p = l ++ a :: l'' := by
  rcases List.eq_nil_or_concat l' with rfl | ⟨l'', c, rfl⟩
  · obtain ⟨hp, hb⟩ := List.append_inj' h rfl
    exact .inl ⟨hp.symm, (List.cons.inj hb).1.symm⟩
  · rw [List.concat_eq_append, ← List.cons_append, ← List.append_assoc] at h
    exact .inr ⟨l'', (List.append_inj' h rfl).1⟩

theorem length_reply (op : Op) (tag : UInt32) (st : UInt8) (data : List UInt8) :
    (RoundTrip.reply st (op.message tag) data).length = REPLY_HEADER + data.length := by
  rw [RoundTrip.reply, List.length_cons, List.length_append, List.length_take, List.length_drop, Op.message,
    header, List.length_append, List.length_cons, List.length_append, length_leList, length_leList,
    REPLY_HEADER]
  omega

theorem drop_reply (op : Op) (tag : UInt32) (st : UInt8) (data : List UInt8) :
    (reply st (op.message tag) data).drop REPLY_HEADER = data := by
  have htag : (((op.message tag).drop 1).take 4).length = 4 := by
    rw [Op.message, header, List.length_take, List.length_drop, List.cons_append, List.length_cons,
      List.length_append, List.length_append, length_leList, length_leList]
    omega
  rw [reply, REPLY_HEADER, List.drop_succ_cons, List.drop_left' htag]

theorem HandedLast.concat {handed : Option ℕ} {past : List ℕ} (h : HandedLast w handed past) {k : ℕ}
    (hk : (w.ops k).request = none) : HandedLast w handed (past ++ [k]) := by
  cases handed with
  | none =>
    intro j hj
    rcases List.mem_append.mp hj with hj | hj
    · exact h j hj
    · rw [List.mem_singleton.mp hj, hk]
  | some i =>
    obtain ⟨l, l', rfl, hl'⟩ := h
    refine ⟨l, l' ++ [k], by rw [List.append_assoc, List.cons_append], fun j hj => ?_⟩
    rcases List.mem_append.mp hj with hj | hj
    · exact hl' j hj
    · rw [List.mem_singleton.mp hj, hk]

section

variable {past : List ℕ} {answer : ℕ → Option (List UInt8)} {disk : Disk} {carried : ℕ → Bool} {k : ℕ}

/-- A call that has no answer so far joins the past. -/
theorem Explained.concat (h : Explained w past answer disk carried) (hnew : k ∉ past)
    (hk : answer k = none) : ∃ carried, Explained w (past ++ [k]) answer disk carried := by
  refine ⟨Function.update carried k false, ?_, fun j req hj hreq => ?_, fun l j l' hl bytes hans hhead req
    hreq => ?_⟩
  · rw [diskAfter_concat, Function.update_self, diskAfter_update _ _ hnew, ← h.disk]
    cases w.ops k <;> rfl
  · by_cases hjk : j = k
    · rw [hjk, Function.update_self] at hj
      cases hj
    · rw [Function.update_of_ne hjk] at hj
      exact h.within j req hj hreq
  · rcases eq_or_mem_of_concat hl with ⟨-, rfl⟩ | ⟨l'', rfl⟩
    · rw [hk] at hans
      cases hans
    · obtain ⟨hcarried, hdata⟩ := h.answers l j l'' rfl bytes hans hhead req hreq
      have hjk : j ≠ k := by
        rintro rfl
        exact hnew (by simp)
      rw [Function.update_of_ne hjk, diskAfter_update _ _ fun hl => hnew (by simp [hl])]
      exact ⟨hcarried, hdata⟩

/-- A request that the device has is one that it can carry out. -/
theorem Explained.within_update (h : Explained w past answer disk carried) {req : Request}
    (hreq : (w.ops k).request = some req) (hlt : req.sector < w.capacity) : ∀ j req',
    Function.update carried k true j = true → (w.ops j).request = some req' → req'.sector < w.capacity := by
  intro j req' hj hreq'
  by_cases hjk : j = k
  · rw [hjk, hreq] at hreq'
    rw [← Option.some.inj hreq']
    exact hlt
  · rw [Function.update_of_ne hjk] at hj
    exact h.within j req' hj hreq'

/-- The last call of the past is answered. If it went to the disk, and its answer is not an error, the
disk has what the answer says. -/
theorem Explained.answered (h : Explained w (past ++ [k]) answer disk carried) (hnew : k ∉ past)
    {bytes : List UInt8} (hbytes : bytes.head? = some 0 → ∀ req, (w.ops k).request = some req →
      req.sector < w.capacity ∧ match req.kind with
        | .read => bytes.drop REPLY_HEADER = (disk req.sector).toList
        | .write => disk req.sector = req.data) :
    ∃ carried, Explained w (past ++ [k]) (Function.update answer k (some bytes)) disk carried := by
  have hdisk := h.disk
  rw [diskAfter_concat] at hdisk
  by_cases hgood : bytes.head? = some 0 ∧ (w.ops k).request.isSome
  · obtain ⟨hhead, hsome⟩ := hgood
    obtain ⟨req, hreq⟩ := Option.isSome_iff_exists.mp hsome
    obtain ⟨hlt, hdone⟩ := hbytes hhead req hreq
    -- the disk is the same if the call is said to have been carried out
    have hsame : carry (w.ops k) true (diskAfter w carried past) = disk ∧
        (req.kind = .read → bytes.drop REPLY_HEADER = (diskAfter w carried past req.sector).toList) := by
      cases hop : w.ops k with
      | info => rw [hop] at hreq; cases hreq
      | shutdown => rw [hop] at hreq; cases hreq
      | read sector =>
        rw [hop] at hreq hdisk
        cases hreq
        have hold : diskAfter w carried past = disk := hdisk
        exact ⟨hold, fun _ => by rw [hold]; exact hdone⟩
      | write sector data =>
        rw [hop] at hreq hdisk
        cases hreq
        refine ⟨?_, fun hread => by cases hread⟩
        cases hcarried : carried k with
        | true => rwa [hcarried] at hdisk
        | false =>
          rw [hcarried] at hdisk
          have hold : diskAfter w carried past = disk := hdisk
          have hdata : disk sector.toNat = data := hdone
          rw [hold, carry, ← hdata, Function.update_eq_self]
    refine ⟨Function.update carried k true, ?_, h.within_update hreq hlt,
      fun l j l' hl bytes' hans hhead' req' hreq' => ?_⟩
    · rw [diskAfter_concat, Function.update_self, diskAfter_update _ _ hnew]
      exact hsame.1
    · rcases eq_or_mem_of_concat hl with ⟨rfl, rfl⟩ | ⟨l'', hl''⟩
      · rw [Function.update_self] at hans
        rw [hreq] at hreq'
        obtain rfl := Option.some.inj hans
        obtain rfl := Option.some.inj hreq'
        rw [Function.update_self, diskAfter_update _ _ hnew]
        exact ⟨rfl, hsame.2⟩
      · have hjk : j ≠ k := by
          rintro rfl
          exact hnew (by rw [hl'']; simp)
        rw [Function.update_of_ne hjk] at hans ⊢
        rw [diskAfter_update _ _ fun hmem => hnew (by rw [hl'']; simp [hmem])]
        exact h.answers l j l' hl bytes' hans hhead' req' hreq'
  · refine ⟨carried, h.disk, h.within, fun l j l' hl bytes' hans hhead' req' hreq' => ?_⟩
    by_cases hjk : j = k
    · rw [hjk, Function.update_self] at hans
      obtain rfl := Option.some.inj hans
      rw [hjk] at hreq'
      exact absurd ⟨hhead', by rw [hreq']; rfl⟩ hgood
    · rw [Function.update_of_ne hjk] at hans
      exact h.answers l j l' hl bytes' hans hhead' req' hreq'

end

/-- The driver answers the message that it has, and the call is the last one of the past. -/
theorem Inv.answer (h : Inv w s) (hm : s.blk.busy = some m) (hfew : s.blk.calls < 2 ^ 32) (st : UInt8)
    (data : List UInt8) (running : Bool) (hinfo : w.ops m.1 = .info → data = leList 8 w.capacity)
    (hlast : HandedLast w s.handed (s.processed ++ [m.1]))
    (hexplained : ∃ carried, Explained w (s.processed ++ [m.1])
      (Function.update s.blk.answer m.1 (some (reply st m.2 data))) s.dev.disk carried) :
    Inv w { s with
      blk := { s.blk with
        busy := none
        replies := s.blk.replies ++ [(m.1, reply st m.2 data)]
        answer := Function.update s.blk.answer m.1 (some (reply st m.2 data)) }
      requested := false
      running := running } := by
  have hmsg : m.2 = (w.ops m.1).message (tagOf m.1) := h.msgs m (by simp [hm])
  have hpast : s.blk.consumed ++ (s.blk.replies ++ [(m.1, reply st m.2 data)]).map Prod.fst ++ [] =
      s.processed ++ [m.1] := by
    rw [List.map_append, ← List.append_assoc, List.append_nil]
    rfl
  have hwhole := h.whole
  rw [RoundTrip.Sys.pipeline, hm] at hwhole
  refine ⟨RoundTrip.inv_step h.blk hfew (driverAnswer_eq hm st data), h.dev, ?_, h.drawn, fun m' hm' => ?_,
    fun k bytes hk => ?_, h.went, (by rintro _ heq; cases heq),
    h.asked, (fun heq => Bool.noConfusion heq), ?_, ?_⟩
  · simpa [RoundTrip.Sys.pipeline] using hwhole
  · exact h.msgs m' (List.mem_append_right _ hm')
  · dsimp only at hk
    by_cases hkm : k = m.1
    · rw [hkm, Function.update_self] at hk
      rw [hkm]
      exact ⟨st, data, by rw [← Option.some.inj hk, ← hmsg], hinfo⟩
    · rw [Function.update_of_ne hkm] at hk
      exact h.answered k bytes hk
  · rw [past, processed, if_neg Bool.false_ne_true, hpast]
    exact hlast
  · rw [past, processed, if_neg Bool.false_ne_true, hpast]
    exact hexplained

theorem Inv.recv (h : Inv w s) (hfew : s.blk.calls < 2 ^ 32) (hs : step w s .recv = some s') : Inv w s' := by
  rw [step] at hs
  split_ifs at hs with hrunning
  obtain ⟨blk, hblk, rfl⟩ := Option.map_eq_some_iff.mp hs
  have hinv : blk.calls = s.blk.calls → RoundTrip.Inv blk := fun hcalls =>
    RoundTrip.inv_step h.blk (by rw [hcalls]; exact hfew) hblk
  simp only [RoundTrip.Sys.step] at hblk
  split at hblk
  · rename_i m rest hbusy hrequests
    cases hblk
    have hrequested : s.requested = false := h.not_requested hbusy
    have hpast : s.processed ++ (if s.requested = true then [m.1] else []) = s.past := by
      rw [past, hrequested]
      rfl
    have hwhole := h.whole
    have hhanded := h.handed
    have hexplained := h.explained
    rw [RoundTrip.Sys.pipeline, hbusy, hrequests] at hwhole
    rw [← hpast] at hhanded hexplained
    refine ⟨hinv rfl, h.dev, hwhole, h.drawn, fun m' hm' => h.msgs m' ?_, h.answered, h.went,
      fun m' hm' => ⟨s.req, ?_⟩, h.asked, fun hr => ?_, hhanded, hexplained⟩
    · rw [hbusy, hrequests]
      exact hm'
    · rw [← Option.some.inj hm']
      rfl
    · rw [hrequested] at hr
      cases hr
  · cases hblk

/-- The driver hands its message to the device. -/
theorem Inv.hand (h : Inv w s) (hm : s.blk.busy = some m) (hrequested : s.requested = false)
    (hsettled : s.dev.Settled) {req : Request} (hreq : (w.ops m.1).request = some req)
    {dev : Virtio.Sys} (hs : s.dev.step (.request req) = some dev) :
    Inv w { s with dev := dev, requested := true, handed := some m.1 } := by
  have hok : Virtio.Ok s.dev (.request req) := hsettled
  have hdev : Virtio.Held w.capacity dev := h.dev.step hok trivial hs
  have hasked : dev.asked = some req ∧ dev.disk = s.dev.disk := by
    simp only [Virtio.Sys.step] at hs
    split at hs <;> cases hs
    exact ⟨rfl, rfl⟩
  have hpast : s.past = s.processed := past_of_not_requested hrequested
  have hpast' : s.processed ++ s.blk.busy.toList.map Prod.fst = s.processed ++ [m.1] := by
    rw [hm]
    rfl
  obtain ⟨hnot, hans⟩ := h.unanswered hm
  obtain ⟨carried, hc⟩ := h.explained
  refine ⟨h.blk, hdev, h.whole, h.drawn, h.msgs, h.answered, h.went, h.buffer, ?_,
    fun _ => ⟨m, hm, rfl⟩, ?_, ?_⟩
  · exact hasked.1.trans hreq.symm
  · exact ⟨s.processed, [], hpast', fun j hj => absurd hj List.not_mem_nil⟩
  · rw [hpast] at hc
    rw [past, if_pos rfl, hasked.2]
    exact hpast' ▸ hc.concat hnot hans

/-- The driver answers at once. -/
theorem Inv.reply (h : Inv w s) (hm : s.blk.busy = some m) (hrequested : s.requested = false)
    (hfew : s.blk.calls < 2 ^ 32) (st : UInt8) (data : List UInt8) (running : Bool)
    (hinfo : w.ops m.1 = .info → data = leList 8 w.capacity) (hnone : (w.ops m.1).request = none)
    (hs : s.blk.step (.driverAnswer st data) = some blk) :
    Inv w { s with blk := blk, running := running } := by
  have hpast : s.past = s.processed := past_of_not_requested hrequested
  obtain ⟨hnot, hans⟩ := h.unanswered hm
  obtain ⟨carried, hc⟩ := h.explained
  have hhanded := h.handed
  rw [hpast] at hc hhanded
  obtain ⟨carried', hc'⟩ := hc.concat hnot hans
  rw [driverAnswer_eq hm] at hs
  obtain rfl := Option.some.inj hs
  have hanswer := h.answer hm hfew st data running hinfo (hhanded.concat hnone)
    (hc'.answered hnot fun _ req hreq => by rw [hnone] at hreq; cases hreq)
  rw [← hrequested] at hanswer
  exact hanswer

theorem Inv.serve (h : Inv w s) (hfew : s.blk.calls < 2 ^ 32) (hsound : Sound w s .serve)
    (hs : step w s .serve = some s') : Inv w s' := by
  rw [step] at hs
  split at hs
  · rename_i m hrequested hm
    obtain ⟨old, hreq⟩ := h.buffer m hm
    have hmsg : m.2 = (w.ops m.1).message (tagOf m.1) := h.msgs m (by simp [hm])
    rw [hmsg] at hreq
    obtain ⟨hlen, hcode, hsector, hdata⟩ := message_received (w.ops m.1) (tagOf m.1) old
    rw [← hreq] at hcode hsector hdata
    have hop : s.op = (w.ops m.1).code := hcode
    have hsettled : s.op = OP_READ ∨ s.op = OP_WRITE → s.dev.Settled := hsound
    rw [hop] at hsettled
    unfold Stack.serve at hs
    dsimp only at hs
    rw [hmsg, if_neg (Nat.not_lt.mpr hlen), hop, hsector] at hs
    cases hcall : w.ops m.1 with
    | info =>
      rw [hcall, Op.code, if_pos rfl] at hs
      obtain ⟨blk, hblk, rfl⟩ := Option.map_eq_some_iff.mp hs
      exact h.reply hm hrequested hfew _ _ _ (fun _ => rfl) (by rw [hcall]; rfl) hblk
    | read sector =>
      rw [hcall, Op.code, if_neg (by decide), if_pos rfl] at hs
      obtain ⟨dev, hdev, rfl⟩ := Option.map_eq_some_iff.mp hs
      exact h.hand hm hrequested (hsettled (.inl (by rw [hcall]; rfl))) (by rw [hcall]; rfl) hdev
    | write sector data =>
      rw [hcall, Op.code, if_neg (by decide), if_neg (by decide), if_pos rfl, hdata sector data hcall] at hs
      obtain ⟨dev, hdev, rfl⟩ := Option.map_eq_some_iff.mp hs
      exact h.hand hm hrequested (hsettled (.inr (by rw [hcall]; rfl))) (by rw [hcall]; rfl) hdev
    | shutdown =>
      rw [hcall, Op.code, if_neg (by decide), if_neg (by decide), if_neg (by decide), if_pos rfl] at hs
      obtain ⟨blk, hblk, rfl⟩ := Option.map_eq_some_iff.mp hs
      exact h.reply hm hrequested hfew _ _ _ (fun hinfo => by rw [hcall] at hinfo; cases hinfo)
        (by rw [hcall]; rfl) hblk
  · cases hs

/-- The driver answers what the device is through with. -/
theorem Inv.answerRequest (h : Inv w s) (hfew : s.blk.calls < 2 ^ 32) (hs : step w s .answer = some s') :
    Inv w s' := by
  rw [step] at hs
  split at hs
  · rename_i r rest hrequested hpc hlog
    obtain ⟨m, hm, hhanded⟩ := h.requested hrequested
    obtain ⟨blk, hblk, rfl⟩ := Option.map_eq_some_iff.mp hs
    rw [driverAnswer_eq hm] at hblk
    obtain rfl := Option.some.inj hblk
    have hpast : s.past = s.processed ++ [m.1] := by
      rw [past, hrequested, hm]
      rfl
    have hasked : s.dev.asked = some r.req := by
      rw [Virtio.Sys.asked, hpc, hlog]
      rfl
    have hreq : (w.ops m.1).request = some r.req := by
      rw [h.asked, hhanded] at hasked
      exact hasked
    have hlast := h.handed
    obtain ⟨carried, hc⟩ := h.explained
    rw [hpast] at hlast hc
    have hmsg : m.2 = (w.ops m.1).message (tagOf m.1) := h.msgs m (by simp [hm])
    refine h.answer hm hfew _ _ s.running (fun hinfo => ?_) hlast
      (hc.answered (h.unanswered hm).1 fun hhead req hreq' => ?_)
    · rw [hinfo] at hreq
      cases hreq
    · obtain rfl : r.req = req := Option.some.inj (hreq.symm.trans hreq')
      have hok : r.ok = true := by
        cases hok : r.ok with
        | true => rfl
        | false =>
          rw [hok] at hhead
          exact absurd (Option.some.inj hhead) (by decide)
      have hr : r ∈ s.dev.log.head? := by
        rw [hlog]
        rfl
      obtain ⟨hsettled, hstatus, hdevice⟩ := h.dev.returned hpc r hr hok
      have hsub : s.dev.pc.Submitted := by
        rw [hpc]
        trivial
      have hhonest := h.dev.inv.honest r (by rw [hlog]; exact List.mem_cons_self) hok
      refine ⟨h.dev.within hsub r.req hasked (.inr ⟨hsettled, hstatus⟩), ?_⟩
      cases hkind : r.req.kind with
      | read =>
        rw [hkind] at hhonest
        dsimp only at hhonest ⊢
        rw [if_pos rfl, hmsg, drop_reply, hhonest, hdevice]
      | write =>
        rw [hkind] at hhonest
        dsimp only at hhonest ⊢
        rw [← hdevice, hhonest]
  · cases hs

/-! ## The device -/

theorem diskAfter_append {carried : ℕ → Bool} {l' : List ℕ}
    (hl' : ∀ j ∈ l', ∀ d, carry (w.ops j) (carried j) d = d) (l : List ℕ) :
    diskAfter w carried (l ++ l') = diskAfter w carried l := by
  induction l' generalizing l with
  | nil => rw [List.append_nil]
  | cons k l' ih =>
    rw [List.append_cons, ih (fun j hj => hl' j (List.mem_cons_of_mem _ hj)), diskAfter_concat,
      hl' k List.mem_cons_self]

/-- The device carries out the write that was handed to it last. -/
theorem Explained.executed {past l l' : List ℕ} {answer : ℕ → Option (List UInt8)} {disk : Disk}
    {carried : ℕ → Bool} {k : ℕ} {req : Request} (h : Explained w past answer disk carried)
    (hpast : past = l ++ k :: l') (hk : k ∉ l) (hl' : ∀ j ∈ l', (w.ops j).request = none)
    (hreq : (w.ops k).request = some req) (hkind : req.kind = .write) (hlt : req.sector < w.capacity) :
    ∃ carried, Explained w past answer (Function.update disk req.sector req.data) carried := by
  obtain ⟨sector, data, hop, rfl⟩ : ∃ sector data, w.ops k = .write sector data ∧
      req = ⟨.write, sector.toNat, data⟩ := by
    cases hop : w.ops k with
    | info => rw [hop] at hreq; cases hreq
    | shutdown => rw [hop] at hreq; cases hreq
    | read sector =>
      rw [hop] at hreq
      cases hreq
      cases hkind
    | write sector data =>
      rw [hop] at hreq
      exact ⟨sector, data, rfl, (Option.some.inj hreq).symm⟩
  have hquiet : ∀ carried : ℕ → Bool, ∀ j ∈ l', ∀ d, carry (w.ops j) (carried j) d = d :=
    fun _ j hj d => carry_of_request_eq_none (hl' j hj) _ d
  have hdisk := h.disk
  rw [hpast, List.append_cons, diskAfter_append (hquiet _), diskAfter_concat, hop] at hdisk
  refine ⟨Function.update carried k true, ?_, h.within_update hreq hlt,
    fun l₁ j l₂ hl bytes hans hhead req' hreq' => ?_⟩
  · rw [hpast, List.append_cons, diskAfter_append (hquiet _), diskAfter_concat, Function.update_self, hop,
      diskAfter_update _ _ hk, ← hdisk]
    cases carried k with
    | true => exact (Function.update_idem _ _ _).symm
    | false => rfl
  · by_cases hjk : j = k
    · rw [hjk, hreq] at hreq'
      rw [hjk, Function.update_self, ← Option.some.inj hreq']
      exact ⟨rfl, fun hread => by cases hread⟩
    · -- a call after this one does not go to the disk, so this one comes before it
      have hmem : k ∉ l₁ := by
        intro hmem
        rw [hpast] at hl
        rcases List.append_eq_append_iff.mp hl with ⟨as, rfl, has⟩ | ⟨bs, rfl, -⟩
        · cases as with
          | nil => exact hjk (List.cons.inj has).1.symm
          | cons i as =>
            have hj : j ∈ l' := by
              rw [(List.cons.inj has).2]
              simp
            rw [hl' j hj] at hreq'
            cases hreq'
        · exact hk (List.mem_append_left _ hmem)
      rw [Function.update_of_ne hjk, diskAfter_update _ _ hmem]
      exact h.answers l₁ j l₂ hl bytes hans hhead req' hreq'

theorem Inv.past_nodup (h : Inv w s) : s.past.Nodup := by
  refine List.Nodup.sublist ?_ h.blk.pipeline_nodup
  rw [RoundTrip.Sys.pipeline, past, processed, ← List.append_assoc, ← List.append_assoc]
  refine List.Sublist.trans ?_ (List.sublist_append_left ..)
  refine (List.Sublist.refl _).append ?_
  split_ifs
  · exact List.Sublist.refl _
  · exact List.nil_sublist _

theorem Inv.device (h : Inv w s) {a : Virtio.Act} (hgoes : goesOn a = true)
    (hwithin : Virtio.Within w.capacity s.dev a) {dev : Virtio.Sys} (hs : s.dev.step a = some dev) :
    Inv w { s with dev := dev } := by
  have hne : ∀ req, a ≠ .request req := by
    rintro req rfl
    cases hgoes
  have hok : Virtio.Ok s.dev a := by
    cases a with
    | request req => exact absurd rfl (hne req)
    | _ => trivial
  have hasked : dev.asked = s.dev.asked := Virtio.asked_step hne hs
  refine ⟨h.blk, h.dev.step hok hwithin hs, h.whole, h.drawn, h.msgs, h.answered, h.went, h.buffer,
    hasked.trans h.asked, h.requested, h.handed, ?_⟩
  obtain ⟨carried, hc⟩ := h.explained
  rcases h.dev.step_disk hwithin hs with hsame | ⟨req, hreq, hkind, hlt, hdisk⟩
  · exact ⟨carried, hsame ▸ hc⟩
  · have hasked' := h.asked
    rw [hreq] at hasked'
    obtain ⟨k, hk, hop⟩ := Option.bind_eq_some_iff.mp hasked'.symm
    have hlast := h.handed
    rw [hk] at hlast
    obtain ⟨l, l', hpast, hl'⟩ := hlast
    have hnodup := h.past_nodup
    rw [hpast] at hnodup
    have hnot : k ∉ l := fun hmem => (List.nodup_append.mp hnodup).2.2 k hmem k List.mem_cons_self rfl
    have hexecuted := hc.executed hpast hnot hl' hop hkind hlt
    rw [← hdisk] at hexecuted
    exact hexecuted

/-! ## Runs -/

theorem calls_le {a : Act} (hs : step w s a = some s') : s.blk.calls ≤ s'.blk.calls := by
  have hmap : ∀ (act : RoundTrip.Act) (f : RoundTrip.Sys → Stack), (∀ blk, (f blk).blk = blk) →
      (s.blk.step act).map f = some s' → s.blk.calls ≤ s'.blk.calls := by
    intro act f hf hs
    obtain ⟨blk, hblk, rfl⟩ := Option.map_eq_some_iff.mp hs
    rw [hf]
    exact RoundTrip.calls_le hblk
  cases a with
  | recv =>
    rw [step] at hs
    split_ifs at hs
    exact hmap _ _ (fun _ => rfl) hs
  | serve =>
    rw [step] at hs
    split at hs
    · unfold Stack.serve at hs
      dsimp only at hs
      split_ifs at hs
      · exact hmap _ _ (fun _ => rfl) hs
      · exact hmap _ _ (fun _ => rfl) hs
      · obtain ⟨dev, -, rfl⟩ := Option.map_eq_some_iff.mp hs
        exact le_rfl
      · obtain ⟨dev, -, rfl⟩ := Option.map_eq_some_iff.mp hs
        exact le_rfl
      · exact hmap _ _ (fun _ => rfl) hs
      · exact hmap _ _ (fun _ => rfl) hs
    · cases hs
  | answer =>
    rw [step] at hs
    split at hs
    · exact hmap _ _ (fun _ => rfl) hs
    · cases hs
  | leave =>
    rw [step] at hs
    split_ifs at hs
    cases hs
    exact le_rfl
  | device a =>
    rw [step] at hs
    split_ifs at hs
    obtain ⟨dev, -, rfl⟩ := Option.map_eq_some_iff.mp hs
    exact le_rfl
  | _ =>
    rw [step] at hs
    exact hmap _ _ (fun _ => rfl) hs

/-- Every step keeps the messages in order, and what was carried out accounts for the disk and for the
answers. -/
theorem Inv.step {a : Act} (h : Inv w s) (hsound : Sound w s a) (hfew : s'.blk.calls < 2 ^ 32)
    (hs : step w s a = some s') : Inv w s' := by
  have hfew' : s.blk.calls < 2 ^ 32 := (calls_le hs).trans_lt hfew
  cases a with
  | attach =>
    rw [Stack.step] at hs
    obtain ⟨blk, hblk, rfl⟩ := Option.map_eq_some_iff.mp hs
    have hinv : RoundTrip.Inv blk := RoundTrip.inv_step h.blk hfew hblk
    cases hblk
    exact h.callers hinv rfl rfl rfl h.whole h.drawn
      (fun m hm => h.msgs m (List.mem_append_right _ hm)) h.went
  | draw =>
    rw [Stack.step] at hs
    obtain ⟨blk, hblk, rfl⟩ := Option.map_eq_some_iff.mp hs
    refine h.draw ?_ hblk
    cases hblk
    exact hfew
  | acquire k =>
    rw [Stack.step] at hs
    obtain ⟨blk, hblk, rfl⟩ := Option.map_eq_some_iff.mp hs
    exact h.acquire hfew' hblk
  | send k now =>
    rw [Stack.step] at hs
    obtain ⟨blk, hblk, rfl⟩ := Option.map_eq_some_iff.mp hs
    exact h.send hfew' hblk
  | poll k now =>
    rw [Stack.step] at hs
    obtain ⟨blk, hblk, rfl⟩ := Option.map_eq_some_iff.mp hs
    exact h.poll hfew' hblk
  | recv => exact h.recv hfew' hs
  | serve => exact h.serve hfew' hsound hs
  | answer => exact h.answerRequest hfew' hs
  | leave =>
    rw [Stack.step] at hs
    split_ifs at hs
    cases hs
    exact ⟨h.blk, h.dev, h.whole, h.drawn, h.msgs, h.answered, h.went, h.buffer, h.asked, h.requested,
      h.handed, h.explained⟩
  | device a =>
    rw [Stack.step] at hs
    split_ifs at hs with hgoes
    obtain ⟨dev, hdev, rfl⟩ := Option.map_eq_some_iff.mp hs
    exact h.device hgoes hsound hdev

end

end Stack

/-! ## One call after another -/

section

variable (w : Wiring) (carried went : ℕ → Bool)

/-- What becomes of a write of which it is known whether it was carried out and whether the call went
well. -/
def writeFate (k : ℕ) : WriteFate := if carried k then if went k then .ok else .landed else .lost

def readFate (k : ℕ) : ReadFate := if went k then .ok else .fail

def writeFates (calls : List ℕ) : List WriteFate := calls.filterMap fun k => match w.ops k with
  | .write _ _ => some (writeFate carried went k)
  | _ => none

def readFates (calls : List ℕ) : List ReadFate := calls.filterMap fun k => match w.ops k with
  | .read _ => some (readFate went k)
  | _ => none

/-- What call `k` returns on a disk. -/
def outcome (k : ℕ) (d : Disk) : Except String (List UInt8) :=
  match w.ops k with
  | .info => .ok (leList 8 w.capacity)
  | .read sector =>
    if went k ∧ sector.toNat < w.capacity then .ok (d sector.toNat).toList
    else .error "block driver did not answer"
  | .write _ _ => if carried k ∧ went k then .ok [] else .error "block driver did not answer"
  | .shutdown => .ok []

def outcomes : List ℕ → Disk → List (Except String (List UInt8))
  | [], _ => []
  | k :: calls, d => outcome w carried went k d :: outcomes calls (carry (w.ops k) (carried k) d)

variable {w} {carried went}

theorem getElem?_outcomes {k : ℕ} {l' : List ℕ} : ∀ (l : List ℕ) (d : Disk),
    (outcomes w carried went (l ++ k :: l') d)[l.length]? =
      some (outcome w carried went k (l.foldl (fun d k => carry (w.ops k) (carried k) d) d))
  | [], _ => rfl
  | _ :: l, _ => getElem?_outcomes l _

/-- One call. -/
theorem attempt_eq {k : ℕ} {calls : List ℕ} {d : Device} (hcapacity : d.capacity = w.capacity)
    (hwithin : ∀ req, carried k = true → (w.ops k).request = some req → req.sector < w.capacity)
    (hwrites : d.writes = writeFates w carried went (k :: calls))
    (hreads : d.reads = readFates w went (k :: calls)) :
    ∃ d' : Device, Blk.attempt (w.ops k).exec d = (.ok (outcome w carried went k d.disk), d') ∧
      d'.capacity = w.capacity ∧ d'.writes = writeFates w carried went calls ∧
      d'.reads = readFates w went calls ∧ d'.disk = carry (w.ops k) (carried k) d.disk := by
  unfold writeFates at hwrites ⊢
  unfold readFates at hreads ⊢
  rw [List.filterMap_cons] at hwrites hreads
  unfold outcome
  cases hop : w.ops k with
  | info =>
    rw [hop] at hwrites hreads
    exact ⟨d, by rw [← hcapacity]; rfl, hcapacity, hwrites, hreads, rfl⟩
  | shutdown =>
    rw [hop] at hwrites hreads
    exact ⟨d, rfl, hcapacity, hwrites, hreads, rfl⟩
  | read sector =>
    rw [hop] at hwrites hreads
    refine ⟨{ d with reads := d.reads.tail }, ?_, hcapacity, hwrites, by rw [hreads]; rfl, rfl⟩
    have hhead : d.reads.headD .ok = readFate went k := by
      rw [hreads]
      rfl
    by_cases hgood : went k = true ∧ sector.toNat < w.capacity
    · have hread : Blk.readSector sector.toNat d =
          (.ok (d.disk sector.toNat), { d with reads := d.reads.tail }) := by
        rw [Blk.readSector, hhead, readFate, if_pos hgood.1, hcapacity, if_neg]
        rintro (hge | hfail)
        · omega
        · cases hfail
      dsimp only
      rw [if_pos hgood]
      exact Blk.attempt_of_ok (Blk.bind_of_ok hread)
    · have hread : Blk.readSector sector.toNat d =
          (.err "block driver did not answer", { d with reads := d.reads.tail }) := by
        rw [Blk.readSector, hhead, readFate, hcapacity]
        refine if_pos ?_
        by_cases hwent : went k = true
        · exact .inl (Nat.not_lt.mp fun hlt => hgood ⟨hwent, hlt⟩)
        · exact .inr (if_neg hwent)
      dsimp only
      rw [if_neg hgood]
      exact Blk.attempt_of_err (Blk.bind_of_err hread)
  | write sector data =>
    rw [hop] at hwrites hreads
    have hhead : d.writes.headD .ok = writeFate carried went k := by
      rw [hwrites]
      rfl
    have htail : d.writes.tail = writeFates w carried went calls := by
      rw [hwrites]
      rfl
    cases hcarried : carried k with
    | false =>
      have hfate : d.nextWrite sector.toNat = .lost := by
        rw [Device.nextWrite, hhead, writeFate, hcarried]
        exact ite_self _
      refine ⟨{ d with writes := d.writes.tail }, ?_, hcapacity, htail, hreads, rfl⟩
      have hwrite : Blk.writeSector sector.toNat data d =
          (.err "block driver did not answer", { d with writes := d.writes.tail }) := by
        rw [Blk.writeSector, hfate]
        rfl
      exact Blk.attempt_of_err (Blk.bind_of_err hwrite)
    | true =>
      have hlt : sector.toNat < w.capacity := hwithin _ hcarried (by rw [hop]; rfl)
      have hfit : ¬d.capacity ≤ sector.toNat := by
        rw [hcapacity]
        exact Nat.not_le.mpr hlt
      refine ⟨Device.store { d with writes := d.writes.tail } sector.toNat data, ?_, hcapacity, htail,
        hreads, rfl⟩
      cases hwent : went k with
      | true =>
        have hfate : d.nextWrite sector.toNat = .ok := by
          rw [Device.nextWrite, hhead, writeFate, hcarried, hwent]
          exact if_neg hfit
        have hwrite : Blk.writeSector sector.toNat data d =
            (.ok (), Device.store { d with writes := d.writes.tail } sector.toNat data) := by
          rw [Blk.writeSector, hfate]
          rfl
        exact Blk.attempt_of_ok (Blk.bind_of_ok hwrite)
      | false =>
        have hfate : d.nextWrite sector.toNat = .landed := by
          rw [Device.nextWrite, hhead, writeFate, hcarried, hwent]
          exact if_neg hfit
        have hwrite : Blk.writeSector sector.toNat data d = (.err "block driver did not answer",
            Device.store { d with writes := d.writes.tail } sector.toNat data) := by
          rw [Blk.writeSector, hfate]
          rfl
        exact Blk.attempt_of_err (Blk.bind_of_err hwrite)

/-- What calls return one after another, and what is on the disk then. -/
theorem replay_eq (hwithin : ∀ k req, carried k = true → (w.ops k).request = some req →
      req.sector < w.capacity) (calls : List ℕ) : ∀ d : Device, d.capacity = w.capacity →
    d.writes = writeFates w carried went calls → d.reads = readFates w went calls →
    ∃ d' : Device, replay (calls.map w.ops) d = (.ok (outcomes w carried went calls d.disk), d') ∧
      d'.disk = calls.foldl (fun d k => carry (w.ops k) (carried k) d) d.disk := by
  induction calls with
  | nil => exact fun d _ _ _ => ⟨d, rfl, rfl⟩
  | cons k calls ih =>
    intro d hcapacity hwrites hreads
    obtain ⟨d₁, hone, hcapacity₁, hwrites₁, hreads₁, hdisk₁⟩ :=
      attempt_eq hcapacity (hwithin k) hwrites hreads
    obtain ⟨d₂, hrest, hdisk₂⟩ := ih d₁ hcapacity₁ hwrites₁ hreads₁
    refine ⟨d₂, ?_, by rw [hdisk₂, hdisk₁]; rfl⟩
    rw [List.map_cons, replay, Blk.bind_of_ok hone, Blk.bind_of_ok hrest, hdisk₁]
    rfl

end

/-! ## What the callers see -/

namespace Stack

/-- Call `k` has returned `Ok`. -/
def wentWell (s : Stack) (k : ℕ) : Bool :=
  match s.blk.pc k with
  | .returned (.ok _) => true
  | _ => false

section

variable {w : Wiring} {s : Stack} {k : ℕ}

theorem Inv.sent_eq (h : Inv w s) : ∃ rest, s.blk.sent = s.past ++ rest := by
  rw [← h.whole, RoundTrip.Sys.pipeline, past, processed]
  split_ifs
  · exact ⟨s.blk.requests.map Prod.fst, by simp only [List.append_assoc]⟩
  · exact ⟨s.blk.busy.toList.map Prod.fst ++ s.blk.requests.map Prod.fst, by
      simp only [List.append_assoc, List.append_nil]⟩

/-- A call that returned `Ok` was answered. -/
theorem Inv.mem_past (h : Inv w s) {bytes : List UInt8} (hk : s.blk.pc k = .returned (.ok bytes)) :
    s.blk.answer k = some bytes ∧ k ∈ s.past := by
  have hans := (h.blk.matched k bytes hk).2
  refine ⟨hans, List.mem_append_left _ ?_⟩
  rcases h.blk.answered k bytes hans with hc | hr
  · exact List.mem_append_left _ hc
  · exact List.mem_append_right _ (List.mem_map.mpr ⟨_, hr, rfl⟩)

/-- What the driver has not come to was not carried out. -/
theorem Inv.carried (h : Inv w s) : ∃ carried, Explained w s.past s.blk.answer s.dev.disk carried ∧
    diskAfter w carried s.blk.sent = s.dev.disk := by
  obtain ⟨carried, hc⟩ := h.explained
  obtain ⟨rest, hrest⟩ := h.sent_eq
  let done : ℕ → Bool := fun k => carried k && decide (k ∈ s.past)
  have hdone : ∀ l, l ⊆ s.past → diskAfter w done l = diskAfter w carried l := fun l hl =>
    diskAfter_congr fun k hk => by simp only [done, hl hk, decide_true, Bool.and_true]
  have hdisk : diskAfter w done s.past = s.dev.disk :=
    (hdone _ (List.Subset.refl _)).trans hc.disk
  refine ⟨done, ⟨hdisk, fun k req hk hreq => ?_, fun l k l' hl bytes hans hhead req hreq => ?_⟩, ?_⟩
  · exact hc.within k req (Bool.and_eq_true_iff.mp hk).1 hreq
  · obtain ⟨hcarried, hdata⟩ := hc.answers l k l' hl bytes hans hhead req hreq
    have hmem : k ∈ s.past := by rw [hl]; simp
    refine ⟨by simp only [done, hcarried, hmem, decide_true, Bool.and_true], ?_⟩
    rw [hdone l (by rw [hl]; exact List.subset_append_left ..)]
    exact hdata
  · have hnodup := h.blk.once
    rw [hrest] at hnodup ⊢
    have hnot : ∀ k ∈ rest, done k = false := fun k hk => by
      have hk' : k ∉ s.past := fun hmem => (List.nodup_append.mp hnodup).2.2 k hmem k hk rfl
      simp only [done, hk', decide_false, Bool.and_false]
    refine (diskAfter_append (fun k hk d => ?_) s.past).trans hdisk
    rw [hnot k hk]
    cases w.ops k <;> rfl

/-- What a call returned comes from the calls before it that were carried out. -/
theorem Inv.agrees (h : Inv w s) {carried : ℕ → Bool}
    (hc : Explained w s.past s.blk.answer s.dev.disk carried) {l l' : List ℕ}
    (hl : s.blk.sent = l ++ k :: l') {r : Except String (List UInt8)} (hk : s.blk.pc k = .returned r) :
    Agrees (w.ops k) ((w.ops k).result r) (some (outcome w carried s.wentWell k (diskAfter w carried l))) := by
  have hwent : s.wentWell k = r.toBool := by
    rw [wentWell, hk]
    cases r <;> rfl
  cases r with
  | error e =>
    have hresult : (w.ops k).result (.error e) = .error e := by cases w.ops k <;> rfl
    rw [hresult]
    intro hdisk
    unfold outcome
    rw [hwent]
    cases hop : w.ops k with
    | info => rw [hop] at hdisk; cases hdisk
    | shutdown => rw [hop] at hdisk; cases hdisk
    | read sector => exact ⟨_, congrArg some (if_neg fun hgood => absurd hgood.1 Bool.false_ne_true)⟩
    | write sector data => exact ⟨_, congrArg some (if_neg fun hgood => absurd hgood.2 Bool.false_ne_true)⟩
  | ok bytes =>
    obtain ⟨hans, hmem⟩ := h.mem_past hk
    have hhead : bytes.head? = some 0 := h.went k bytes hk
    obtain ⟨st, data, hbytes, hinfo⟩ := h.answered k bytes hans
    have hdrop : bytes.drop REPLY_HEADER = data := by rw [hbytes, drop_reply]
    -- the call is at the same place of the past
    have hpast : ∃ l₂, s.past = l ++ k :: l₂ := by
      obtain ⟨rest, hrest⟩ := h.sent_eq
      obtain ⟨l₁, l₂, hl₁⟩ := List.append_of_mem hmem
      have hnodup := h.blk.once
      rw [hrest, hl₁, List.append_assoc, List.cons_append] at hl
      rw [hrest, hl₁, List.append_assoc, List.cons_append] at hnodup
      have hbefore : k ∉ l₁ := fun hmem =>
        (List.nodup_append.mp hnodup).2.2 k hmem k List.mem_cons_self rfl
      have hafter : k ∉ l₂ ++ rest := (List.nodup_cons.mp (List.nodup_append.mp hnodup).2.1).1
      obtain ⟨rfl, -, -⟩ := (List.append_cons_inj_of_notMem hbefore hafter).mp hl
      exact ⟨l₂, hl₁⟩
    obtain ⟨l₂, hl₂⟩ := hpast
    have hanswer := hc.answers l k l₂ hl₂ bytes hans hhead
    unfold outcome
    rw [hwent]
    have hlen : bytes.length = REPLY_HEADER + data.length := by rw [hbytes, length_reply]
    cases hop : w.ops k with
    | info =>
      have hdata : data = leList 8 w.capacity := hinfo hop
      rw [hdata, length_leList] at hlen
      rw [Op.result, if_neg (by omega), hdrop, hdata, List.take_of_length_le (length_leList ..).le]
      rfl
    | shutdown => rfl
    | read sector =>
      rw [hop] at hanswer
      obtain ⟨hcarried, hread⟩ := hanswer _ rfl
      have hdata : data = (diskAfter w carried l sector.toNat).toList := hdrop.symm.trans (hread rfl)
      have hlt : sector.toNat < w.capacity := hc.within k _ hcarried (by rw [hop]; rfl)
      have hsize : data.length = SECTOR_SIZE := by rw [hdata, Vector.length_toList]
      rw [hsize] at hlen
      rw [Op.result, if_neg (by omega), hdrop, List.take_of_length_le hsize.le, hdata]
      exact congrArg some (if_pos ⟨rfl, hlt⟩)
    | write sector payload =>
      rw [hop] at hanswer
      obtain ⟨hcarried, -⟩ := hanswer _ rfl
      exact congrArg some (if_pos ⟨hcarried, rfl⟩)

end

/-- In a run in which each request is made when the device has nothing left to write for an earlier one,
and in which fewer than `2 ^ 32` calls are made, every call takes effect when it is sent: the calls that
were sent return what they would return one after another in this order, on a device that loses or
carries out the writes of calls that failed, and leave on the disk what is there. A call that was not
sent fails. -/
theorem calls_explained (h : Run.Reachable (step w) (Sound w) (Init w) s) (hfew : s.blk.calls < 2 ^ 32) :
    (∃ (writes : List WriteFate) (reads : List ReadFate)
      (results : List (Except String (List UInt8))) (d : Device),
      replay (s.blk.sent.map w.ops)
        { capacity := w.capacity, disk := w.disk, writes := writes, reads := reads } = (.ok results, d) ∧
      d.disk = s.dev.disk ∧
      ∀ (i k : ℕ) (r : Except String (List UInt8)), s.blk.sent[i]? = some k → s.blk.pc k = .returned r →
        Agrees (w.ops k) ((w.ops k).result r) results[i]?) ∧
    ∀ k r, s.blk.pc k = .returned r → k ∉ s.blk.sent → ∃ e, r = .error e := by
  have hinv : Inv w s := by
    refine h.invariant (fun s => s.blk.calls < 2 ^ 32 → Inv w s) (fun s hs _ => hs.inv) ?_ hfew
    exact fun s a s' hinv hsound hs hfew => (hinv ((calls_le hs).trans_lt hfew)).step hsound hfew hs
  refine ⟨?_, fun k r hk hnot => ?_⟩
  · obtain ⟨carried, hc, hdisk⟩ := hinv.carried
    obtain ⟨d, hreplay, hd⟩ := @replay_eq w carried s.wentWell hc.within s.blk.sent
      { capacity := w.capacity, disk := w.disk, writes := writeFates w carried s.wentWell s.blk.sent
        reads := readFates w s.wentWell s.blk.sent } rfl rfl rfl
    refine ⟨_, _, _, d, hreplay, hd.trans hdisk, fun i k r hi hk => ?_⟩
    obtain ⟨hlt, hget⟩ := List.getElem?_eq_some_iff.mp hi
    have hsplit : s.blk.sent = s.blk.sent.take i ++ k :: s.blk.sent.drop (i + 1) := by
      rw [← hget, ← List.drop_eq_getElem_cons hlt, List.take_append_drop]
    have hlen : (s.blk.sent.take i).length = i := List.length_take_of_le hlt.le
    have hresult : (outcomes w carried s.wentWell (s.blk.sent.take i ++ k :: s.blk.sent.drop (i + 1))
        w.disk)[(s.blk.sent.take i).length]? =
        some (outcome w carried s.wentWell k (diskAfter w carried (s.blk.sent.take i))) :=
      getElem?_outcomes _ _
    rw [← hsplit, hlen] at hresult
    dsimp only
    rw [hresult]
    exact hinv.agrees hc hsplit hk
  · cases r with
    | error e => exact ⟨e, rfl⟩
    | ok bytes =>
      obtain ⟨rest, hrest⟩ := hinv.sent_eq
      exact absurd (by rw [hrest]; exact List.mem_append_left _ (hinv.mem_past hk).2) hnot

/-! ## A late write -/

instance (w : Wiring) (s : Stack) (a : Act) : Decidable (Sound w s a) := by
  cases a <;> unfold Sound <;> infer_instance

/-- The first call writes to sector 5, and the second one reads sector 6. -/
def writeThenRead : Wiring where
  ops := fun k => if k = 0 then .write 5 (Vector.replicate SECTOR_SIZE 1) else .read 6
  capacity := 8
  disk := Virtio.start.disk

def boot : Stack where
  blk := RoundTrip.Sys.init
  dev := Virtio.start
  req := Vector.replicate REQ 0
  requested := false
  running := true
  handed := none

/-- The driver comes to the request, and writes it to the memory of the device. -/
def taken : List Act := [.recv, .serve] ++ List.replicate 6 (.device (.run 0))

/-- The device carries the request out, and the driver answers. -/
def done : List Act :=
  [.device .fetch, .device (.execute 0), .device .report, .device .complete, .device (.run 1),
    .device (.run 0), .answer]

/-- The write is carried out after its caller gave up. -/
def lateWrite : List Act :=
  [.attach, .draw, .acquire 0, .send 0 0] ++ taken ++ [.poll 0 801] ++ done ++
    [.draw, .acquire 1, .send 1 802] ++ taken ++ done ++ [.poll 1 803, .poll 1 804]

theorem calls_explained_lateWrite : ∃ s, Run.exec (step writeThenRead) boot lateWrite = some s ∧
    s.wentWell 0 = false ∧ s.wentWell 1 = true ∧ ∃ writes reads results d,
      replay [.write 5 (Vector.replicate SECTOR_SIZE 1), .read 6]
        { capacity := 8, disk := Virtio.start.disk, writes := writes, reads := reads } = (.ok results, d) ∧
      d.disk = s.dev.disk := by
  have hinit : Init writeThenRead boot :=
    ⟨rfl, ⟨rfl, rfl, rfl, rfl, rfl, rfl, rfl, rfl, rfl⟩, rfl, rfl, rfl⟩
  have hmeets : Run.Meets (step writeThenRead) (Sound writeThenRead) boot lateWrite := by decide +kernel
  have hrun : (Run.exec (step writeThenRead) boot lateWrite).map
      (fun s => (s.blk.sent, s.blk.calls, s.wentWell 0, s.wentWell 1)) = some ([0, 1], 2, false, true) := by
    decide +kernel
  obtain ⟨s, hs, heq⟩ := Option.map_eq_some_iff.mp hrun
  simp only [Prod.mk.injEq] at heq
  obtain ⟨hsent, hcalls, hfirst, hsecond⟩ := heq
  have hfew : s.blk.calls < 2 ^ 32 := by
    rw [hcalls]
    decide
  obtain ⟨⟨writes, reads, results, d, hreplay, hdisk, -⟩, -⟩ :=
    calls_explained ((Run.Reachable.start hinit).exec hmeets hs) hfew
  rw [hsent] at hreplay
  exact ⟨s, hs, hfirst, hsecond, writes, reads, results, d, hreplay, hdisk⟩

end Stack

end JungeyOs.Storage
