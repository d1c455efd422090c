import JungeyOs.RoundTrip
import JungeyOs.Virtio

/-!
# The block driver and its request buffer

Model of `run` (`user/src/blkdrv.rs`, lines 314–376): the driver receives message after message into
one buffer and looks at the length of a message only to see that it has a header. The device completes
each command before the next one: it carries the command out, or reports an error and leaves its sectors
alone.

Results:
* `serve_cases`, `step_whole`: what the driver does with a message.
* `faithful_iff_sound`: a message is served as it should be, except for a write without a whole payload.
* `faithful_runs_iff`: so it is in every run.
-/

namespace JungeyOs.Blkdrv

open JungeyOs.Bytes
open RoundTrip (REPLY_HEADER reply)
open Virtio (Kind)

/-- `OP_INFO`, `OP_READ`, `OP_WRITE` and `OP_SHUTDOWN` (lines 78–81). -/
def OP_INFO : UInt8 := 0
def OP_READ : UInt8 := 1
def OP_WRITE : UInt8 := 2
def OP_SHUTDOWN : UInt8 := 3

/-- `HEADER` (line 328). -/
def HEADER : ℕ := 13

/-- The size of `req` (line 330). -/
def REQ : ℕ := HEADER + SECTOR_SIZE

/-- Whether the device carries out its commands, counted from the start. -/
structure Env where
  device : ℕ → Bool

/-- The driver and its device; `replies` are the messages that it has sent. -/
structure Driver where
  capacity : ℕ
  disk : Disk
  req : Vector UInt8 REQ
  commands : ℕ
  replies : List (List UInt8)
  running : Bool

/-- `recv` (`syscall.rs`, lines 162–163): what does not fit is cut off, and the rest of the buffer stays
as it was. -/
def received {n : ℕ} (req : Vector UInt8 n) (bytes : List UInt8) : Vector UInt8 n :=
  Vector.ofFn fun i => bytes[i.val]?.getD (req.get i)

/-- The sector of a request (line 345). -/
def sectorOf (req : List UInt8) : ℕ := ofLE ((req.drop 5).take 8)

namespace Driver

/-- The driver once it has attached. -/
def start (capacity : ℕ) (disk : Disk) : Driver where
  capacity := capacity
  disk := disk
  req := Vector.replicate REQ 0
  commands := 0
  replies := []
  running := true

/-- The device has the sector, and carries out the next command. -/
def Accepts (env : Env) (s : Driver) (sector : ℕ) : Prop :=
  sector < s.capacity ∧ env.device s.commands = true

instance (env : Env) (s : Driver) (sector : ℕ) : Decidable (s.Accepts env sector) :=
  inferInstanceAs (Decidable (_ ∧ _))

/-- `Disk::request` (lines 210–255): what it returns, and `data` afterwards. -/
def request (env : Env) (s : Driver) (kind : Kind) (sector : ℕ) (data : Sector) :
    (Bool × Sector) × Driver :=
  let done := { s with commands := s.commands + 1 }
  if s.Accepts env sector then
    match kind with
    | .read => ((true, s.disk sector), done)
    | .write => ((true, data), { done with disk := Function.update s.disk sector data })
  else ((false, data), done)

def send (s : Driver) (message : List UInt8) : Driver := { s with replies := s.replies ++ [message] }

/-- The status byte of a reply. -/
def status (ok : Bool) : UInt8 := if ok then 0 else 1

/-- The requests (lines 349–374), with `req` in the buffer. -/
def serve (env : Env) (s : Driver) : Driver :=
  let req := s.req.toList
  let op := s.req[0]
  let sector := sectorOf req
  if op = OP_INFO then s.send (reply 0 req (leList 8 s.capacity))
  else if op = OP_READ then
    let ((ok, data), s) := s.request env .read sector (Vector.replicate SECTOR_SIZE 0)
    s.send (reply (status ok) req data.toList)
  else if op = OP_WRITE then
    let data : Sector := slice s.req HEADER SECTOR_SIZE
    let ((ok, _), s) := s.request env .write sector data
    s.send (reply (status ok) req [])
  else if op = OP_SHUTDOWN then { s.send (reply 0 req []) with running := false }
  else s.send (reply 1 req [])

/-- One turn of the loop (lines 333–375). -/
def step (env : Env) (s : Driver) (bytes : List UInt8) : Option Driver :=
  if s.running = false then none
  else
    let s := { s with req := received s.req bytes }
    some (if min bytes.length REQ < HEADER then s else s.serve env)

end Driver

/-! ## What a message asks for -/

/-- The message is a write. -/
def IsWrite (bytes : List UInt8) : Prop := bytes.head? = some OP_WRITE ∧ HEADER ≤ bytes.length

instance (bytes : List UInt8) : Decidable (IsWrite bytes) := inferInstanceAs (Decidable (_ ∧ _))

/-- The driver does with a message what it should: a sector changes to the payload of a whole write, and
the message is answered once, with its own tag. -/
structure Faithful (env : Env) (s : Driver) (bytes : List UInt8) : Prop where
  disk : ∀ s', s.step env bytes = some s' → ∀ x, s'.disk x ≠ s.disk x →
    IsWrite bytes ∧ REQ ≤ bytes.length ∧ x = sectorOf bytes ∧
      (s'.disk x).toList = (bytes.drop HEADER).take SECTOR_SIZE
  reply : ∀ s', s.step env bytes = some s' → HEADER ≤ bytes.length →
    ∃ r, s'.replies = s.replies ++ [r] ∧ REPLY_HEADER ≤ r.length ∧
      (r.drop 1).take 4 = (bytes.drop 1).take 4

/-- The message is not a write that lacks a part of its payload, that the device carries out, and that
changes the sector to what an earlier message has left in the buffer. -/
def Sound (env : Env) (s : Driver) (bytes : List UInt8) : Prop :=
  IsWrite bytes → bytes.length < REQ → s.running = true → s.Accepts env (sectorOf bytes) →
    slice (received s.req bytes) HEADER SECTOR_SIZE = s.disk (sectorOf bytes)

section

variable {n : ℕ} (req : Vector UInt8 n) (bytes : List UInt8)

theorem getElem?_received {i : ℕ} (h : i < n) (hi : i < bytes.length) :
    (received req bytes).toList[i]? = bytes[i]? := by
  have hlt : i < (received req bytes).toList.length := by rwa [Vector.length_toList]
  have hget : (received req bytes)[i] = bytes[i]?.getD req[i] := Vector.getElem_ofFn h
  rw [List.getElem?_eq_getElem hlt, Vector.getElem_toList, hget, List.getElem?_eq_getElem hi,
    Option.getD_some]

/-- What a message has of a range, the buffer has there. -/
theorem range_received {pos len : ℕ} (h : pos + len ≤ n) (hlen : pos + len ≤ bytes.length) :
    ((received req bytes).toList.drop pos).take len = (bytes.drop pos).take len := by
  apply List.ext_getElem?
  intro i
  by_cases hi : i < len
  · rw [List.getElem?_take_of_lt hi, List.getElem?_take_of_lt hi, List.getElem?_drop,
      List.getElem?_drop, getElem?_received req bytes (by omega) (by omega)]
  · rw [List.getElem?_take_eq_none (by omega), List.getElem?_take_eq_none (by omega)]

end

/-! ## What the driver does -/

namespace Driver

/-- The driver answers a request once, and changes a sector only if it is a write that the device carries
out. -/
theorem serve_cases (env : Env) (s : Driver) :
    (∃ status data, (s.serve env).replies = s.replies ++ [reply status s.req.toList data]) ∧
      (¬(s.req[0] = OP_WRITE ∧ s.Accepts env (sectorOf s.req.toList)) ∧ (s.serve env).disk = s.disk ∨
        (s.req[0] = OP_WRITE ∧ s.Accepts env (sectorOf s.req.toList)) ∧ (s.serve env).disk =
          Function.update s.disk (sectorOf s.req.toList) (slice s.req HEADER SECTOR_SIZE)) := by
  unfold serve request send
  dsimp only
  by_cases hinfo : s.req[0] = OP_INFO
  · rw [if_pos hinfo, hinfo]
    exact ⟨⟨_, _, rfl⟩, .inl ⟨fun h => absurd h.1 (by decide), rfl⟩⟩
  rw [if_neg hinfo]
  by_cases hread : s.req[0] = OP_READ
  · rw [if_pos hread, hread]
    have hnot : ¬(OP_READ = OP_WRITE ∧ s.Accepts env (sectorOf s.req.toList)) :=
      fun h => absurd h.1 (by decide)
    by_cases hacc : s.Accepts env (sectorOf s.req.toList)
    · rw [if_pos hacc]
      exact ⟨⟨_, _, rfl⟩, .inl ⟨hnot, rfl⟩⟩
    · rw [if_neg hacc]
      exact ⟨⟨_, _, rfl⟩, .inl ⟨hnot, rfl⟩⟩
  rw [if_neg hread]
  by_cases hwrite : s.req[0] = OP_WRITE
  · rw [if_pos hwrite]
    by_cases hacc : s.Accepts env (sectorOf s.req.toList)
    · rw [if_pos hacc]
      exact ⟨⟨_, _, rfl⟩, .inr ⟨⟨hwrite, hacc⟩, rfl⟩⟩
    · rw [if_neg hacc]
      exact ⟨⟨_, _, rfl⟩, .inl ⟨fun h => hacc h.2, rfl⟩⟩
  rw [if_neg hwrite]
  split_ifs
  · exact ⟨⟨_, _, rfl⟩, .inl ⟨fun h => hwrite h.1, rfl⟩⟩
  · exact ⟨⟨_, _, rfl⟩, .inl ⟨fun h => hwrite h.1, rfl⟩⟩

end Driver

section

variable {env : Env} {s : Driver} {bytes : List UInt8}

/-- A header in the buffer is that of the message. -/
theorem header_received (req : Vector UInt8 REQ) (h : HEADER ≤ bytes.length) :
    bytes.head? = some (received req bytes)[0] ∧ sectorOf (received req bytes).toList = sectorOf bytes ∧
      ((received req bytes).toList.drop 1).take 4 = (bytes.drop 1).take 4 := by
  have hheader : HEADER = 13 := rfl
  refine ⟨?_, ?_, range_received _ _ (by decide) (by omega)⟩
  · have hpos : 0 < bytes.length := by omega
    have hget : (received req bytes)[0] = bytes[0]?.getD req[0] := Vector.getElem_ofFn _
    rw [hget, List.head?_eq_getElem?, List.getElem?_eq_getElem hpos, Option.getD_some]
  · rw [sectorOf, range_received _ _ (by decide) (by omega)]
    rfl

theorem step_stopped (hrun : s.running = false) : s.step env bytes = none := if_pos hrun

/-- Of a message without a header the driver only keeps the bytes. -/
theorem step_short (hrun : s.running = true) (h : bytes.length < HEADER) :
    s.step env bytes = some { s with req := received s.req bytes } := by
  rw [Driver.step, if_neg (by simp [hrun])]
  dsimp only
  rw [if_pos (by omega)]

/-- A message with a header is answered once, with its tag, and a sector changes only if it is a write that
the device carries out. -/
theorem step_whole (env : Env) (hrun : s.running = true) (h : HEADER ≤ bytes.length) :
    ∃ s' r, s.step env bytes = some s' ∧ s'.replies = s.replies ++ [r] ∧ REPLY_HEADER ≤ r.length ∧
      (r.drop 1).take 4 = (bytes.drop 1).take 4 ∧
        (¬(IsWrite bytes ∧ s.Accepts env (sectorOf bytes)) ∧ s'.disk = s.disk ∨
          (IsWrite bytes ∧ s.Accepts env (sectorOf bytes)) ∧ s'.disk =
            Function.update s.disk (sectorOf bytes) (slice (received s.req bytes) HEADER SECTOR_SIZE)) := by
  have hreq : REQ = 525 := rfl
  have hheader : HEADER = 13 := rfl
  have hstep : s.step env bytes = some ({ s with req := received s.req bytes }.serve env) := by
    rw [Driver.step, if_neg (by simp [hrun])]
    dsimp only
    rw [if_neg (by omega)]
  obtain ⟨hop, hsector, htag⟩ := header_received s.req h
  obtain ⟨⟨status, data, hreplies⟩, hcases⟩ :=
    Driver.serve_cases env { s with req := received s.req bytes }
  dsimp only at hreplies hcases
  have hwrite : IsWrite bytes ↔ (received s.req bytes)[0] = OP_WRITE := by
    rw [IsWrite, hop, Option.some_inj, and_iff_left h]
  have haccepts : Driver.Accepts env { s with req := received s.req bytes }
      (sectorOf (received s.req bytes).toList) ↔ s.Accepts env (sectorOf bytes) := by
    rw [hsector, Driver.Accepts, Driver.Accepts]
  rw [haccepts, ← hwrite, hsector] at hcases
  have hlen : ((bytes.drop 1).take 4).length = 4 := by
    rw [List.length_take, List.length_drop]
    omega
  refine ⟨_, _, hstep, hreplies, ?_, ?_, hcases⟩
  · rw [reply, htag, List.length_cons, List.length_append, hlen, REPLY_HEADER]
    omega
  · rw [reply, htag, List.drop_succ_cons, List.drop_zero,
      List.take_append_of_le_length hlen.ge, List.take_of_length_le hlen.le]

/-- The message is served as it should be exactly when it is not a write that is filled up from an earlier
message. -/
theorem faithful_iff_sound : Faithful env s bytes ↔ Sound env s bytes := by
  cases hrun : s.running with
  | false =>
    refine iff_of_true ⟨fun s' hs => ?_, fun s' hs => ?_⟩ fun _ _ hrunning => ?_
    · cases (step_stopped hrun).symm.trans hs
    · cases (step_stopped hrun).symm.trans hs
    · cases hrun.symm.trans hrunning
  | true =>
    by_cases hshort : bytes.length < HEADER
    · refine iff_of_true ⟨fun s' hs x hx => ?_, fun _ _ hlong => ?_⟩ fun hwrite => ?_
      · cases (step_short hrun hshort).symm.trans hs
        exact absurd rfl hx
      · exact absurd hlong (Nat.not_le.mpr hshort)
      · exact absurd hwrite.2 (Nat.not_le.mpr hshort)
    obtain ⟨t, r, hstep, hreplies, hlen, htag, hcases⟩ := step_whole env hrun (Nat.not_lt.mp hshort)
    constructor
    · intro hf hw hlt _ hacc
      obtain ⟨hnot, -⟩ | ⟨-, hdisk⟩ := hcases
      · exact absurd ⟨hw, hacc⟩ hnot
      · by_contra hne
        have hchanged := hf.disk t hstep (sectorOf bytes) (by rwa [hdisk, Function.update_self])
        exact absurd hchanged.2.1 (Nat.not_le.mpr hlt)
    · intro hsound
      refine ⟨fun s' hs x hx => ?_, fun s' hs _ => ?_⟩
      · obtain rfl := Option.some.inj (hstep.symm.trans hs)
        obtain ⟨-, hdisk⟩ | ⟨⟨hw, hacc⟩, hdisk⟩ := hcases
        · exact absurd (congrFun hdisk x) hx
        have hxs : x = sectorOf bytes := by
          by_contra hne
          exact hx (by rw [hdisk, Function.update_of_ne hne])
        subst hxs
        rw [hdisk, Function.update_self] at hx ⊢
        have hfull : REQ ≤ bytes.length := by
          by_contra hlt
          exact hx (hsound hw (Nat.not_le.mp hlt) hrun hacc)
        have hend : HEADER + SECTOR_SIZE ≤ REQ := le_rfl
        exact ⟨hw, hfull, rfl, (toList_slice _ hend).trans (range_received _ _ hend hfull)⟩
      · obtain rfl := Option.some.inj (hstep.symm.trans hs)
        exact ⟨r, hreplies, hlen, htag⟩

/-- In every run all messages are served as they should be if and only if none of them is a write that
lacks a part of its payload, is carried out, and changes its sector to something else than it was. -/
theorem faithful_runs_iff (env : Env) (capacity : ℕ) (disk : Disk) (messages : List (List UInt8)) :
    Run.Meets (Driver.step env) (Faithful env) (Driver.start capacity disk) messages ↔
      Run.Meets (Driver.step env) (Sound env) (Driver.start capacity disk) messages :=
  Run.meets_congr (fun _ _ => faithful_iff_sound) _ _

end

/-- A write of sector 3 that is a header only. -/
def headerOnly : List UInt8 := [OP_WRITE, 1, 0, 0, 0, 3, 0, 0, 0, 0, 0, 0, 0]

/-- A disk of eight sectors full of ones. -/
def ones : Disk := fun _ => Vector.replicate SECTOR_SIZE 1

/-- The driver writes what the buffer held, which here are the zeros that it began with. -/
theorem headerOnly_written : ¬∀ (env : Env) (capacity : ℕ) (disk : Disk) (messages : List (List UInt8)),
    Run.Meets (Driver.step env) (Faithful env) (Driver.start capacity disk) messages := by
  intro h
  have hsound := faithful_iff_sound.mp (h ⟨fun _ => true⟩ 8 ones [headerOnly]).1
  have heq : slice (received (Driver.start 8 ones).req headerOnly) HEADER SECTOR_SIZE = ones 3 :=
    hsound (by decide) (by decide) rfl (by decide)
  have hbyte : (slice (received (Driver.start 8 ones).req headerOnly) HEADER SECTOR_SIZE)[0] =
      (ones 3)[0] := by rw [heq]
  rw [getElem_slice _ _ (by decide)] at hbyte
  exact absurd hbyte (by set_option maxRecDepth 20000 in decide)

end JungeyOs.Blkdrv
