import JungeyOs.Display.Damage

/-!
# Frames

Model of `Frame` in `kernel/src/display.rs` (lines 145–211): drawing calls are encoded and
sent to the display server in batches. The bytes of a string are a list; a batch that is
sent is a message from the kernel.

Results:
* `messages_split`: the messages of a frame are the calls in order, cut between calls, and
  fit the buffer of the server.
* `after_batch`: the server handles each of them to its end.
* `frame_delivered`: the background decodes to the calls since the last `clear`.
-/

namespace JungeyOs.Display

open Bytes Reads

/-! ## The client -/

/-- `BATCH_LIMIT` (line 27). -/
def BATCH_LIMIT : ℕ := 3600

/-- A drawing call on a frame. -/
inductive Call
  | clear (color : UInt32)
  | rect (x y w h : UInt16) (color : UInt32)
  | text (x y : UInt16) (scale : UInt8) (color : UInt32) (s : List UInt8)

/-- `to_be_bytes` of a `u16`. -/
def beBytes (v : UInt16) : List UInt8 := [(v >>> 8).toUInt8, v.toUInt8]

/-- `to_le_bytes` of a `u32`. -/
def leBytes32 (v : UInt32) : List UInt8 := leList 4 v.toNat

namespace Call

/-- What a call asks `room_for` (lines 170, 177 and 189). -/
def size : Call → ℕ
  | .clear _ => 5
  | .rect _ _ _ _ _ => 13
  | .text _ _ _ _ s => 11 + min s.length 200

/-- What a call pushes (lines 169–199). -/
def encode : Call → List UInt8
  | .clear color => OP_CLEAR :: leBytes32 color
  | .rect x y w h color =>
    OP_RECT :: (beBytes x ++ beBytes y ++ beBytes w ++ beBytes h ++ leBytes32 color)
  | .text x y scale color s =>
    let len := min s.length 200
    OP_TEXT :: (beBytes x ++ beBytes y ++ leBytes32 color ++ [scale, UInt8.ofNat len] ++ s.take len)

/-- What a call asks to be drawn: a string is cut to its first 200 bytes. -/
def draw : Call → Draw
  | .clear color => .fill 0 0 WIDTH HEIGHT color
  | .rect x y w h color => .fill x.toNat y.toNat w.toNat h.toNat color
  | .text x y scale color s => .text x.toNat y.toNat (max scale.toNat 1) color (s.take 200)

end Call

/-- `Frame` (lines 145–149), with the batches sent so far. -/
structure Frame where
  ops : List UInt8
  sent : List (List UInt8)

namespace Frame

def new : Frame := { ops := [], sent := [] }

/-- `round_trip` on the batch taken from the frame; an empty one is not sent. -/
def flush (f : Frame) : Frame :=
  { ops := [], sent := if f.ops = [] then f.sent else f.sent ++ [f.ops] }

/-- `Frame::room_for` (lines 162–167). -/
def roomFor (f : Frame) (n : ℕ) : Frame := if f.ops.length + n > BATCH_LIMIT then f.flush else f

/-- `Frame::clear`, `Frame::rect` and `Frame::text` (lines 169–199). -/
def call (f : Frame) (c : Call) : Frame :=
  let f := f.roomFor c.size
  { f with ops := f.ops ++ c.encode }

/-- `Frame::present` (lines 201–211). -/
def present (f : Frame) : Frame :=
  let f := f.roomFor 1
  { f with ops := f.ops ++ [OP_PRESENT] }.flush

end Frame

/-- The messages of a frame. -/
def messages (calls : List Call) : List (List UInt8) :=
  (calls.foldl Frame.call Frame.new).present.sent

theorem length_leBytes32 (v : UInt32) : (leBytes32 v).length = 4 := length_leList 4 _

theorem Call.length_encode (c : Call) : c.encode.length = c.size := by
  cases c <;> simp [encode, size, beBytes, length_leBytes32]
  omega

theorem Call.size_le (c : Call) : c.size ≤ 211 := by
  cases c <;> simp only [size] <;> omega

theorem Call.size_pos (c : Call) : 0 < c.size := by
  cases c <;> simp only [size] <;> omega

/-! ## Batches -/

/-- The calls `cs` on a frame: those of the batches sent, and those that wait. -/
structure Frame.Holds (f : Frame) (cs : List Call) (parts : List (List Call)) (rest : List Call) :
    Prop where
  sent : f.sent = parts.map fun p => p.flatMap Call.encode
  ops : f.ops = rest.flatMap Call.encode
  calls : parts.flatten ++ rest = cs
  fits : ∀ m ∈ f.sent, 0 < m.length ∧ m.length ≤ BATCH_LIMIT
  waits : f.ops.length ≤ BATCH_LIMIT

theorem Frame.holds_roomFor {f : Frame} {cs rest : List Call} {parts : List (List Call)}
    (h : f.Holds cs parts rest) {n : ℕ} (hn : n ≤ 211) :
    ∃ parts' rest', (f.roomFor n).Holds cs parts' rest' ∧
      (f.roomFor n).ops.length + n ≤ BATCH_LIMIT := by
  rw [Frame.roomFor]
  by_cases hfull : f.ops.length + n > BATCH_LIMIT
  · rw [if_pos hfull]
    have hne : f.ops ≠ [] := by
      intro hnil
      rw [hnil] at hfull
      simp only [List.length_nil, BATCH_LIMIT] at hfull
      omega
    have hpos := List.length_pos_of_ne_nil hne
    refine ⟨parts ++ [rest], [], ⟨?_, rfl, ?_, ?_, Nat.zero_le _⟩, ?_⟩
    · rw [Frame.flush, if_neg hne, h.sent, h.ops]
      simp
    · rw [← h.calls]
      simp
    · intro m hm
      rw [Frame.flush, if_neg hne] at hm
      rcases List.mem_append.mp hm with hm | hm
      · exact h.fits m hm
      · rw [List.mem_singleton.mp hm]
        exact ⟨hpos, h.waits⟩
    · simp only [Frame.flush, List.length_nil, BATCH_LIMIT]
      omega
  · rw [if_neg hfull]
    exact ⟨parts, rest, h, Nat.not_lt.mp hfull⟩

theorem Frame.holds_call {f : Frame} {cs rest : List Call} {parts : List (List Call)}
    (h : f.Holds cs parts rest) (c : Call) :
    ∃ parts' rest', (f.call c).Holds (cs ++ [c]) parts' rest' := by
  obtain ⟨parts', rest', h', hroom⟩ := Frame.holds_roomFor h c.size_le
  refine ⟨parts', rest' ++ [c], h'.sent, ?_, ?_, h'.fits, ?_⟩
  · rw [Frame.call, h'.ops]
    simp
  · rw [← h'.calls, List.append_assoc]
  · rw [Frame.call, List.length_append, c.length_encode]
    exact hroom

theorem Frame.holds_calls {f : Frame} {cs rest : List Call} {parts : List (List Call)}
    (h : f.Holds cs parts rest) (calls : List Call) :
    ∃ parts' rest', (calls.foldl Frame.call f).Holds (cs ++ calls) parts' rest' := by
  induction calls generalizing f cs parts rest with
  | nil => exact ⟨parts, rest, by simpa using h⟩
  | cons c calls ih =>
    obtain ⟨parts', rest', h'⟩ := Frame.holds_call h c
    obtain ⟨parts'', rest'', h''⟩ := ih h'
    exact ⟨parts'', rest'', by simpa using h''⟩

/-- The messages of a frame are its calls in order, cut between calls, and a `PRESENT`. -/
theorem messages_split (calls : List Call) :
    ∃ (parts : List (List Call)) (rest : List Call), parts.flatten ++ rest = calls ∧
      messages calls = parts.map (fun p => p.flatMap Call.encode) ++
        [rest.flatMap Call.encode ++ [OP_PRESENT]] ∧
      ∀ m ∈ messages calls, 0 < m.length ∧ m.length ≤ BATCH_LIMIT := by
  have hnew : Frame.new.Holds [] [] [] :=
    ⟨rfl, rfl, rfl, fun m hm => absurd hm List.not_mem_nil, Nat.zero_le _⟩
  obtain ⟨parts, rest, h⟩ := Frame.holds_calls hnew calls
  obtain ⟨parts', rest', h', hroom⟩ := Frame.holds_roomFor h (n := 1) (by decide)
  have hmessages : messages calls =
      parts'.map (fun p => p.flatMap Call.encode) ++ [rest'.flatMap Call.encode ++ [OP_PRESENT]] := by
    rw [messages, Frame.present, Frame.flush, if_neg (by simp), h'.ops, h'.sent]
  refine ⟨parts', rest', by simpa using h'.calls, hmessages, fun m hm => ?_⟩
  rw [hmessages, ← h'.sent, ← h'.ops] at hm
  rcases List.mem_append.mp hm with hm | hm
  · exact h'.fits m hm
  · rw [List.mem_singleton.mp hm, List.length_append]
    exact ⟨Nat.succ_pos _, hroom⟩

/-! ## What a call encodes -/

/-- The two bytes of a `u16`. -/
theorem be16_beBytes (v : UInt16) (rest : List UInt8) : be16 (beBytes v ++ rest) = v.toNat := by
  have hv := v.toNat_lt
  have hhigh : (v >>> 8).toUInt8.toNat = v.toNat / 256 := by
    rw [UInt16.toNat_toUInt8, UInt16.toNat_shiftRight]
    have height : (8 : UInt16).toNat % 16 = 8 := rfl
    rw [height, Nat.shiftRight_eq_div_pow]
    omega
  have hlow : v.toUInt8.toNat = v.toNat % 256 := UInt16.toNat_toUInt8 v
  have hbytes : be16 (beBytes v ++ rest) = ((v >>> 8).toUInt8.toNat <<< 8) ||| v.toUInt8.toNat := rfl
  rw [hbytes, hhigh, hlow, ← Nat.shiftLeft_add_eq_or_of_lt (by omega), Nat.shiftLeft_eq]
  omega

/-- The four bytes of a `u32`. -/
theorem le32_leBytes32 (v : UInt32) (rest : List UInt8) : le32 (leBytes32 v ++ rest) = v := by
  have htake : (leBytes32 v ++ rest).take 4 = leBytes32 v := by
    rw [List.take_append_of_le_length (length_leBytes32 v).ge,
      List.take_of_length_le (length_leBytes32 v).le]
  rw [le32, htake, leBytes32, ofLE_leList 4 _ v.toNat_lt, UInt32.ofNat_toNat]

theorem drop_beBytes (v : UInt16) (rest : List UInt8) (k : ℕ) :
    (beBytes v ++ rest).drop (k + 2) = rest.drop k := rfl

/-- A call is sent as one whole command, which is decoded to what was asked for. -/
theorem encodes_call (c : Call) : Encodes c.encode c.draw := by
  cases c with
  | clear color =>
    have h := encodes_clear (length_leBytes32 color)
    have hcolor := le32_leBytes32 color []
    rw [List.append_nil] at hcolor
    rwa [hcolor] at h
  | rect x y w h color =>
    have henc := encodes_rect (b := beBytes x ++ (beBytes y ++ (beBytes w ++ (beBytes h ++
      leBytes32 color)))) (by simp [beBytes, length_leBytes32])
    have hcolor := le32_leBytes32 color []
    rw [List.append_nil] at hcolor
    simp only [drop_beBytes, be16_beBytes, List.drop_zero, hcolor] at henc
    simpa only [Call.encode, Call.draw, List.append_assoc] using henc
  | text x y scale color s =>
    have hcolor : (leBytes32 color).length = 4 := length_leBytes32 color
    have htake : s.take (min s.length 200) = s.take 200 := by
      rw [Nat.min_comm, ← List.take_take, List.take_length]
    have hget : ∀ k, (beBytes x ++ (beBytes y ++ (leBytes32 color ++
        [scale, UInt8.ofNat (min s.length 200)]))).getD (8 + k) 0 =
          [scale, UInt8.ofNat (min s.length 200)].getD k 0 := by
      intro k
      rw [List.getD_append_right _ _ _ _ (by simp [beBytes]; omega),
        List.getD_append_right _ _ _ _ (by simp [beBytes]; omega),
        List.getD_append_right _ _ _ _ (by simp [beBytes, hcolor]; omega)]
      congr 1
      simp [beBytes, hcolor]
      omega
    have henc := encodes_text (s.take 200) (b := beBytes x ++ (beBytes y ++ (leBytes32 color ++
      [scale, UInt8.ofNat (min s.length 200)])))
      (by simp [beBytes, length_leBytes32]) (by
        rw [hget 1, List.length_take, Nat.min_comm]
        simp [UInt8.toNat_ofNat'])
    rw [hget 0] at henc
    simp only [drop_beBytes, be16_beBytes, List.drop_zero, le32_leBytes32,
      List.getD_cons_zero] at henc
    simpa only [Call.encode, Call.draw, List.append_assoc, htake] using henc

/-! ## The server -/

/-- `ROOT` after a call has come in: a `clear` starts anew, and other calls are appended
while there is room. -/
def retain (root : List UInt8) : Call → List UInt8
  | .clear color => (Call.clear color).encode
  | c => rootAppend root c.encode

/-- The calls since the last `clear`. -/
def since (ds : List Draw) : Call → List Draw
  | .clear color => [(Call.clear color).draw]
  | c => ds ++ [c.draw]

/-- `ROOT_CAPACITY` is not exceeded by the calls, when `n` bytes are retained before. -/
def WithinCapacity : ℕ → List Call → Prop
  | _, [] => True
  | _, .clear _ :: calls => WithinCapacity 5 calls
  | n, c :: calls => n + c.size ≤ ROOT_CAPACITY ∧ WithinCapacity (n + c.size) calls

namespace Server

variable {env : Env} {s s' : Server} {n i : ℕ} {buf more : List UInt8}

/-- What stands at an index. -/
theorem getElem?_of_drop {b : List UInt8} (h : buf.drop i = b ++ more) {k : ℕ} (hk : k < b.length) :
    buf[i + k]? = some (b.get ⟨k, hk⟩) := by
  rw [← List.getElem?_drop, h, List.getElem?_append_left hk, List.getElem?_eq_getElem hk]
  rfl

theorem kept_eq {b : List UInt8} (h : buf.drop i = b ++ more) :
    rootAppend s.root (s.kept buf i b.length) = rootAppend s.root b := by
  rw [kept, h, List.take_left]
  by_cases hk : s.Keeps b.length
  · rw [if_pos hk]
  · have hfull : s.root.length + b.length > ROOT_CAPACITY := Nat.lt_of_not_le hk
    rw [if_neg hk, rootAppend, rootAppend, if_pos hfull, List.append_nil]
    split_ifs <;> rfl

/-- A call is decoded to a command that retains it. -/
theorem request_call {c : Call} (hat : buf.drop i = c.encode ++ more)
    (hbound : i + c.size ≤ buf.length) (s : Server) (env : Env) :
    ∃ req, ((s.request KERNEL i).run buf).2 = some (some (req, c.size)) ∧ req ≠ .shutdown ∧
      (s.perform env KERNEL req).root = retain s.root c := by
  have hlen := c.length_encode
  have hkept := kept_eq (s := s) hat
  rw [hlen] at hkept
  cases c with
  | clear color =>
    have hop : buf[i]? = some OP_CLEAR := getElem?_of_drop hat (k := 0) (by simp [Call.encode])
    have ha : arm KERNEL OP_CLEAR = some .clear := by decide
    have hrun := request_of_parse (s := s) hop ha
    have htake : ((Call.clear color).encode ++ more).take 5 = (Call.clear color).encode :=
      List.take_left' hlen
    rw [run_clear hbound, Option.map_some, hat, htake] at hrun
    refine ⟨_, hrun, by simp, ?_⟩
    have hroom : ¬([] : List UInt8).length + (Call.clear color).encode.length > ROOT_CAPACITY := by
      rw [hlen]
      simp [Call.size, ROOT_CAPACITY]
    rw [perform, rootAppend, if_neg hroom, List.nil_append, retain]
  | rect x y w h color =>
    have hop : buf[i]? = some OP_RECT := getElem?_of_drop hat (k := 0) (by simp [Call.encode])
    have ha : arm KERNEL OP_RECT = some .rect := by decide
    have hrun := request_of_parse (s := s) hop ha
    rw [run_rect hbound, Option.map_some] at hrun
    exact ⟨_, hrun, by simp, hkept⟩
  | text x y scale color str =>
    have hop : buf[i]? = some OP_TEXT := getElem?_of_drop hat (k := 0) (by simp [Call.encode])
    have ha : arm KERNEL OP_TEXT = some .text := by decide
    have hscale : buf[i + 9]? = some scale := by
      rw [getElem?_of_drop hat (by rw [hlen, Call.size]; omega)]
      simp [Call.encode, beBytes, leBytes32, leList]
    have hcount : buf[i + 10]? = some (UInt8.ofNat (min str.length 200)) := by
      rw [getElem?_of_drop hat (by rw [hlen, Call.size]; omega)]
      simp [Call.encode, beBytes, leBytes32, leList]
    have hnat : (UInt8.ofNat (min str.length 200)).toNat = min str.length 200 := by
      rw [UInt8.toNat_ofNat', Nat.mod_eq_of_lt (by omega)]
    have htext := run_text s KERNEL hcount hscale (by rw [hnat]; exact hbound)
    rw [hnat] at htext
    have hrun := request_of_parse (s := s) hop ha
    rw [htext, Option.map_some] at hrun
    exact ⟨_, hrun, by simp, hkept⟩

/-- The server takes a call in one turn of its loop. -/
theorem leads_call (env : Env) {c : Call} (hat : buf.drop i = c.encode ++ more) (hn : i + c.size ≤ n)
    (hbuf : n ≤ buf.length) (s : Server) :
    ∃ s', Leads env KERNEL n buf (s, i) (s', i + c.size) ∧ s'.root = retain s.root c := by
  obtain ⟨req, hrun, hne, hroot⟩ := request_call hat (hn.trans hbuf) s env
  have hpos := c.size_pos
  have hi : i < n := by omega
  exact ⟨_, ⟨hi, turn_eq_next.mpr ⟨req, c.size, hrun, hne, rfl, rfl⟩⟩, hroot⟩

/-- The server takes the calls of a message one after the other. -/
theorem comes_calls (env : Env) {calls : List Call} (hat : buf.drop i = calls.flatMap Call.encode ++ more)
    (hn : i + (calls.flatMap Call.encode).length ≤ n) (hbuf : n ≤ buf.length) (s : Server) :
    ∃ s', Relation.ReflTransGen (Leads env KERNEL n buf) (s, i)
        (s', i + (calls.flatMap Call.encode).length) ∧
      s'.root = calls.foldl retain s.root := by
  induction calls generalizing s i with
  | nil => exact ⟨s, .refl, rfl⟩
  | cons c calls ih =>
    rw [List.flatMap_cons, List.length_append, c.length_encode] at hn
    rw [List.flatMap_cons, List.append_assoc] at hat
    obtain ⟨t, hleads, ht⟩ := leads_call env hat (by omega) hbuf s
    have hrest : buf.drop (i + c.size) = calls.flatMap Call.encode ++ more := by
      rw [← List.drop_drop, hat, ← c.length_encode, List.drop_left]
    obtain ⟨s', hcomes, hs'⟩ := ih hrest (by omega) t
    refine ⟨s', .head hleads ?_, by rw [hs', ht]; rfl⟩
    rw [List.flatMap_cons, List.length_append, c.length_encode, ← Nat.add_assoc]
    exact hcomes

/-- A loop that comes to the end of the message ends there. -/
theorem decode_of_comes {sender fuel : ℕ} {a b : Server × ℕ}
    (h : Relation.ReflTransGen (Leads env sender n buf) a b) (hb : n ≤ b.2)
    (hfuel : n ≤ a.2 + fuel) :
    (decode env sender n buf (fuel + 1) a.1 a.2).2 = (b.1, .done) := by
  induction h using Relation.ReflTransGen.head_induction_on generalizing fuel with
  | refl => rw [decode_of_le hb]
  | head hleads _ ih =>
    have hadv := hleads.advances
    have ha := hleads.1
    obtain ⟨fuel, rfl⟩ : ∃ f, fuel = f + 1 := ⟨fuel - 1, by omega⟩
    rw [decode_of_leads hleads]
    exact ih (by omega)

/-! ## Messages -/

theorem compose_root (env : Env) (s : Server) : (s.compose env).root = s.root := by
  simp only [compose, present]
  split_ifs <;> rfl

theorem routeTap_root (env : Env) (s : Server) (x y : ℕ) : (s.routeTap env x y).root = s.root := by
  rw [routeTap]
  cases s.wm.hit x y with
  | none => rfl
  | some r =>
    obtain ⟨owner, id, rx, ry⟩ := r
    simp only
    cases s.slot owner with
    | none => rfl
    | some slot =>
      simp only
      split_ifs <;> rfl

/-- The kernel sends `bytes`, and the buffer held `old`. -/
def fromKernel (bytes : UpTo BUFFER UInt8) (old : Vector UInt8 BUFFER) : Delivery where
  sender := KERNEL
  bytes := bytes
  old := old

/-- The server after a message. -/
def after (env : Env) (s : Server) (m : Delivery) : Served := (serve env m.sender s m.bytes m.old).2

/-- A batch of calls is handled to its end, and its calls are retained. -/
theorem after_batch (env : Env) (s : Server) {bytes : UpTo BUFFER UInt8}
    (old : Vector UInt8 BUFFER) {calls : List Call}
    (hbytes : bytes.val = calls.flatMap Call.encode ∨
      bytes.val = calls.flatMap Call.encode ++ [OP_PRESENT]) :
    (after env s (fromKernel bytes old)).stop = .done ∧
      (after env s (fromKernel bytes old)).server.root = calls.foldl retain s.root := by
  have hbuf : bytes.val.length ≤ (received old bytes).length := by
    rw [length_received]
    exact bytes.property
  obtain ⟨s', j, hcomes, hj, hroot⟩ : ∃ s' j,
      Relation.ReflTransGen (Leads env KERNEL bytes.val.length (received old bytes)) (s, 0) (s', j) ∧
        bytes.val.length ≤ j ∧ s'.root = calls.foldl retain s.root := by
    rcases hbytes with hbytes | hbytes
    · have hat : (received old bytes).drop 0 =
          calls.flatMap Call.encode ++ old.toList.drop bytes.val.length := by
        rw [received, hbytes, List.drop_zero]
      obtain ⟨s', hcomes, hroot⟩ := comes_calls env hat (by rw [hbytes]; omega) hbuf s
      exact ⟨s', _, hcomes, by rw [hbytes]; omega, hroot⟩
    · have hat : (received old bytes).drop 0 =
          calls.flatMap Call.encode ++ (OP_PRESENT :: old.toList.drop bytes.val.length) := by
        rw [received, hbytes, List.drop_zero, List.append_assoc]
        rfl
      have hlen : bytes.val.length = (calls.flatMap Call.encode).length + 1 := by
        rw [hbytes, List.length_append, List.length_singleton]
      obtain ⟨t, hcomes, ht⟩ := comes_calls env hat (by omega) hbuf s
      -- the last command is the `PRESENT`
      have hop : (received old bytes)[0 + (calls.flatMap Call.encode).length]? = some OP_PRESENT := by
        rw [← List.getElem?_drop, hat, List.getElem?_append_right le_rfl, Nat.sub_self]
        rfl
      have ha : arm KERNEL OP_PRESENT = some .present := by decide
      have hrun := request_of_parse (s := t) hop ha
      have hleads : Leads env KERNEL bytes.val.length (received old bytes)
          (t, 0 + (calls.flatMap Call.encode).length)
          (t.compose env, 0 + (calls.flatMap Call.encode).length + 1) :=
        ⟨by simp only; omega, turn_eq_next.mpr ⟨.present, 1, hrun, by simp, rfl, rfl⟩⟩
      exact ⟨_, _, hcomes.tail hleads, by omega, by rw [compose_root, ht]⟩
  have hdecode := decode_of_comes hcomes hj (Nat.le_add_left _ 0)
  by_cases hpos : bytes.val.length = 0
  · have hcalls : calls = [] := by
      cases calls with
      | nil => rfl
      | cons c calls =>
        have hc := c.size_pos
        rcases hbytes with hbytes | hbytes <;>
        · rw [hbytes] at hpos
          simp only [List.flatMap_cons, List.length_append, c.length_encode] at hpos
          omega
    rw [after, serve, fromKernel, if_pos hpos, hcalls]
    exact ⟨rfl, rfl⟩
  · have hafter : after env s (fromKernel bytes old) = conclude KERNEL (s', .done) := by
      rw [after, serve, fromKernel, if_neg hpos]
      simp only
      rw [hdecode]
    rw [hafter]
    exact ⟨rfl, hroot⟩

/-- Other processes do not touch the background. -/
theorem leads_root {sender : ℕ} (hsender : sender ≠ KERNEL) {a b : Server × ℕ}
    (h : Leads env sender n buf a b) : b.1.root = a.1.root := by
  obtain ⟨req, len, hrun, -, hb, -⟩ := turn_eq_next.mp h.2
  obtain ⟨op, arm, -, harm, hof, -⟩ := request_eq_some hrun
  rw [hb]
  cases req with
  | clear bytes =>
    obtain rfl : arm = .clear := hof
    exact absurd (arm_of harm).2 hsender
  | draw bytes damage =>
    rcases hof with rfl | rfl <;> exact absurd (arm_of harm).2 hsender
  | present => exact compose_root env a.1
  | input x y down =>
    rw [perform]
    split_ifs
    · exact routeTap_root env a.1 x y
    · rfl
  | _ => rfl

theorem after_root (env : Env) (s : Server) {m : Delivery} (hm : m.sender ≠ KERNEL) :
    (after env s m).server.root = s.root := by
  obtain ⟨j, hcomes⟩ := serve_comes env m.sender s m.bytes m.old
  have hall : ∀ b : Server × ℕ, Relation.ReflTransGen
      (Leads env m.sender m.bytes.val.length (received m.old m.bytes)) (s, 0) b → b.1.root = s.root := by
    intro b hb
    induction hb with
    | refl => rfl
    | tail _ hleads ih => rw [leads_root hm hleads, ih]
  exact hall _ hcomes

/-! ## Runs -/

/-- Messages that the server handles one after the other, each to its end. -/
inductive Runs (env : Env) : Server → List Delivery → Server → Prop
  | nil (s : Server) : Runs env s [] s
  | cons {s s' : Server} {m : Delivery} {ms : List Delivery} :
      (after env s m).stop = .done → Runs env (after env s m).server ms s' → Runs env s (m :: ms) s'

/-- Every turn of the loop leaves whole commands in `ROOT`. -/
theorem encodes_leads {sender : ℕ} {a b : Server × ℕ} (h : Leads env sender n buf a b)
    (ha : ∃ ds, EncodesAll a.1.root ds) : ∃ ds, EncodesAll b.1.root ds := by
  obtain ⟨req, len, hrun, -, hb, -⟩ := turn_eq_next.mp h.2
  rw [hb]
  cases req with
  | clear bytes =>
    obtain ⟨hlen, color, henc⟩ := request_clear hrun
    have happend : rootAppend [] bytes = bytes := by simp [rootAppend, hlen, ROOT_CAPACITY]
    rw [perform, happend]
    exact ⟨_, henc.all⟩
  | draw bytes damage =>
    obtain ⟨ds, hds⟩ := ha
    by_cases hk : a.1.Keeps len
    · obtain ⟨hlen, d, henc, -⟩ := request_draw hrun hk
      have happend : rootAppend a.1.root bytes = a.1.root ++ bytes :=
        if_neg (Nat.not_lt.mpr (by rw [hlen]; exact hk))
      rw [perform, happend]
      exact ⟨_, hds.append henc.all⟩
    · have hbytes : bytes = [] := by rw [request_kept hrun, kept, if_neg hk]
      have happend : rootAppend a.1.root bytes = a.1.root := by
        rw [hbytes, rootAppend, List.append_nil]
        split_ifs <;> rfl
      rw [perform, happend]
      exact ⟨ds, hds⟩
  | present =>
    rw [perform, compose_root]
    exact ha
  | input x y down =>
    rw [perform]
    split_ifs
    · rw [routeTap_root]
      exact ha
    · exact ha
  | _ => exact ha

theorem encodes_after (env : Env) (m : Delivery) (hs : ∃ ds, EncodesAll s.root ds) :
    ∃ ds, EncodesAll (after env s m).server.root ds := by
  obtain ⟨j, hcomes⟩ := serve_comes env m.sender s m.bytes m.old
  have hall : ∀ b : Server × ℕ, Relation.ReflTransGen
      (Leads env m.sender m.bytes.val.length (received m.old m.bytes)) (s, 0) b →
        ∃ ds, EncodesAll b.1.root ds := by
    intro b hb
    induction hb with
    | refl => exact hs
    | tail _ hleads ih => exact encodes_leads hleads ih
  exact hall _ hcomes

theorem encodes_runs {ms : List Delivery} (h : Runs env s ms s')
    (hs : ∃ ds, EncodesAll s.root ds) : ∃ ds, EncodesAll s'.root ds := by
  induction h with
  | nil => exact hs
  | cons _ _ ih => exact ih (encodes_after env _ hs)

/-- The messages `ms` are batches of the calls, in order. -/
inductive Batches : List (List UInt8) → List Call → Prop
  | nil : Batches [] []
  | cons {m : List UInt8} {ms : List (List UInt8)} {cs calls : List Call} :
      m = cs.flatMap Call.encode ∨ m = cs.flatMap Call.encode ++ [OP_PRESENT] →
      Batches ms calls → Batches (m :: ms) (cs ++ calls)

theorem batches_messages (calls : List Call) : Batches (messages calls) calls := by
  obtain ⟨parts, rest, hcalls, hmessages, -⟩ := messages_split calls
  rw [hmessages, ← hcalls]
  clear hcalls hmessages
  induction parts with
  | nil => simpa using Batches.cons (Or.inr rfl) (Batches.nil)
  | cons p parts ih =>
    rw [List.map_cons, List.cons_append, List.flatten_cons, List.append_assoc]
    exact .cons (Or.inl rfl) ih

/-- The messages that the kernel sent. -/
def kernelMessages (ms : List Delivery) : List (List UInt8) :=
  (ms.filter fun m => m.sender = KERNEL).map fun m => m.bytes.val

/-- Whatever other processes send in between, the calls are retained in order. -/
theorem root_runs {ms : List Delivery} {calls : List Call} (h : Runs env s ms s')
    (hb : Batches (kernelMessages ms) calls) : s'.root = calls.foldl retain s.root := by
  induction h generalizing calls with
  | nil s =>
    cases hb
    rfl
  | @cons s s' m ms hdone hrest ih =>
    by_cases hm : m.sender = KERNEL
    · rw [kernelMessages, List.filter_cons_of_pos (by simpa using hm), List.map_cons] at hb
      obtain ⟨sender, bytes, old⟩ := m
      obtain rfl : sender = KERNEL := hm
      generalize hval : bytes.val = v at hb
      cases hb with
      | cons hbatch hb =>
        subst hval
        have hafter := (after_batch env s old hbatch).2
        rw [List.foldl_append, ← hafter]
        exact ih hb
    · rw [kernelMessages, List.filter_cons_of_neg (by simpa using hm)] at hb
      rw [ih hb, after_root env s hm]

/-- Calls that find room are retained whole. -/
theorem encodes_retain {calls : List Call} {root : List UInt8} {ds : List Draw}
    (h : EncodesAll root ds) (hcap : WithinCapacity root.length calls) :
    EncodesAll (calls.foldl retain root) (calls.foldl since ds) := by
  induction calls generalizing root ds with
  | nil => exact h
  | cons c calls ih =>
    have hgrow : ∀ c : Call, root.length + c.size ≤ ROOT_CAPACITY →
        EncodesAll (rootAppend root c.encode) (ds ++ [c.draw]) ∧
          (rootAppend root c.encode).length = root.length + c.size := by
      intro c hroom
      have hlen := c.length_encode
      have happend : rootAppend root c.encode = root ++ c.encode :=
        if_neg (Nat.not_lt.mpr (by rw [hlen]; exact hroom))
      rw [happend, List.length_append, hlen]
      exact ⟨h.append (encodes_call c).all, rfl⟩
    cases c with
    | clear color => exact ih (encodes_call (.clear color)).all hcap
    | rect x y w h' color =>
      obtain ⟨henc, hlen⟩ := hgrow (.rect x y w h' color) hcap.1
      exact ih henc (show WithinCapacity (rootAppend root _).length calls by rw [hlen]; exact hcap.2)
    | text x y scale color str =>
      obtain ⟨henc, hlen⟩ := hgrow (.text x y scale color str) hcap.1
      exact ih henc (show WithinCapacity (rootAppend root _).length calls by rw [hlen]; exact hcap.2)

end Server

/-- What a frame comes to. -/
structure Delivered (calls : List Call) : Prop where
  /-- no command is split between two messages -/
  split : ∃ (parts : List (List Call)) (rest : List Call), parts.flatten ++ rest = calls ∧
    messages calls = parts.map (fun p => p.flatMap Call.encode) ++
      [rest.flatMap Call.encode ++ [OP_PRESENT]]
  /-- no message exceeds the buffer of the server -/
  fits : ∀ m ∈ messages calls, m.length ≤ BUFFER
  /-- the server handles every message to its end -/
  handled : ∀ (env : Env) (s : Server) (bytes : UpTo BUFFER UInt8) (old : Vector UInt8 BUFFER),
    bytes.val ∈ messages calls → (Server.after env s (Server.fromKernel bytes old)).stop = .done
  /-- after any messages, and with any from other processes in between, the background is
  the calls since the last `clear` -/
  retained : ∀ (env : Env) (fb : ℕ → UInt32) (before ms : List Server.Delivery) (s s' : Server),
    Server.Runs env (Server.start env fb) before s → Server.Runs env s ms s' →
    Server.kernelMessages ms = messages calls → WithinCapacity s.root.length calls →
    rootPaint s'.root = calls.foldl since (rootPaint s.root)

/-- Every sequence of calls ended by `present`. -/
theorem frame_delivered (calls : List Call) : Delivered calls := by
  obtain ⟨parts, rest, hcalls, hmessages, hlength⟩ := messages_split calls
  constructor
  · exact ⟨parts, rest, hcalls, hmessages⟩
  · intro m hm
    exact (hlength m hm).2.trans (by decide)
  · intro env s bytes old hmem
    rw [hmessages] at hmem
    rcases List.mem_append.mp hmem with hm | hm
    · obtain ⟨p, -, hp⟩ := List.mem_map.mp hm
      exact (Server.after_batch env s old (Or.inl hp.symm)).1
    · exact (Server.after_batch env s old (Or.inr (List.mem_singleton.mp hm))).1
  · intro env fb before ms s s' hbefore hms hkernel hcap
    have hstart : ∃ ds, EncodesAll (Server.start env fb).root ds := by
      have hroot := (Server.shown_start env fb).root
      exact hroot.encodes
    obtain ⟨ds, hds⟩ := Server.encodes_runs hbefore hstart
    have hroot := Server.root_runs hms (by rw [hkernel]; exact Server.batches_messages calls)
    have hafter := Server.encodes_retain hds hcap
    rw [hroot, rootPaint_of_encodes hafter, rootPaint_of_encodes hds]

end JungeyOs.Display
