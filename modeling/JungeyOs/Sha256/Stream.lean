import JungeyOs.Sha256.Compress

/-!
# A message in pieces

`Sha256::update` may be called with pieces of any length, and `finish` pads what has come in
(`sha256.rs`, lines 48–83). The state of the hasher is that of a buffer which takes the bytes one by
one, so the cuts make no difference, and the padding completes the standard's padded message.

Results:
* `view_update`, `view_stream`: the hasher after a piece and after a list of pieces.
* `padZeros_done`: the padding loop ends.
* `stream_eq_standard`: the digest of a message in pieces, and `measure_with_flipped_byte`.
-/

namespace JungeyOs

namespace Sha256

open Fips180 Blockwise

/-- The standard's compression of a block of bytes. -/
noncomputable def hashBytes (H : Work) (block : List UInt8) : Work :=
  Fips180.compress H (bytesBits block)

/-- What the hasher has done: the hash value and the bytes that wait in the block. -/
def view (h : Sha256) : Work × List UInt8 := (words h.state, h.block.toList.take h.filled.val)

theorem length_pending (h : Sha256) : (view h).2.length = h.filled.val := by
  have hlt := h.filled.isLt
  rw [view, List.length_take, Vector.length_toList]
  omega

theorem view_new : view new = (initial, []) := by
  rw [view, new, words_init]
  rfl

/-! ## The loop of `update` -/

/-- Data copied into the block follows the bytes that wait there. -/
theorem take_fill (block : Vector UInt8 64) (filled : ℕ) (data : List UInt8)
    (h : filled + data.length ≤ 64) :
    (fill block filled data).toList.take (filled + data.length) =
      block.toList.take filled ++ data := by
  apply List.ext_getElem?
  intro i
  rw [List.getElem?_take, List.getElem?_append, List.length_take, Vector.length_toList,
    Nat.min_eq_left (by omega), Vector.getElem?_toList, List.getElem?_take, Vector.getElem?_toList]
  by_cases hi : i < filled
  · -- before the data the block is as it was
    rw [if_pos hi, if_pos hi, if_pos (by omega), Vector.getElem?_eq_getElem (by omega),
      Vector.getElem?_eq_getElem (by omega), fill, Vector.getElem_ofFn,
      if_neg (Nat.not_le.mpr hi)]
    rfl
  · rw [if_neg hi]
    by_cases hdata : i - filled < data.length
    · rw [if_pos (by omega), Vector.getElem?_eq_getElem (by omega), fill, Vector.getElem_ofFn,
        if_pos (by show filled ≤ i; omega), List.getElem?_eq_getElem hdata, Option.getD_some]
    · rw [if_neg (by omega), List.getElem?_eq_none (by omega)]

/-- An iteration of the loop feeds the bytes that it takes. -/
theorem view_absorbStep (h : Sha256) {data : List UInt8} (hne : data ≠ []) :
    view (absorbStep h data).1 =
      feed 64 hashBytes (view h) (data.take (min (64 - h.filled.val) data.length)) := by
  have hfilled := h.filled.isLt
  have hpos := List.length_pos_of_ne_nil hne
  have hlen : (data.take (min (64 - h.filled.val) data.length)).length =
      min (64 - h.filled.val) data.length := by
    rw [List.length_take]
    omega
  have hfill := take_fill h.block h.filled.val (data.take (min (64 - h.filled.val) data.length))
    (by omega)
  unfold absorbStep
  dsimp only
  generalize data.take (min (64 - h.filled.val) data.length) = taken at hlen hfill
  rw [← hlen]
  by_cases hfull : h.filled.val + taken.length < 64
  · rw [dif_pos hfull, feed_of_lt (by rw [length_pending]; exact hfull)]
    exact Prod.ext rfl hfill
  · have hall : h.filled.val + taken.length = 64 := by omega
    have hne : taken ≠ [] := List.ne_nil_of_length_pos (by omega)
    rw [dif_neg hfull, feed_of_eq hne (by rw [length_pending]; exact hall)]
    rw [hall, List.take_of_length_le (by rw [Vector.length_toList])] at hfill
    apply Prod.ext
    · show words (compress h.state (fill h.block h.filled.val taken)) = _
      rw [words_compress, hfill]
      rfl
    · rfl

/-- The loop of `update` feeds its bytes. -/
theorem view_absorb {h : Sha256} {data : List UInt8} {fuel : ℕ} (hle : data.length ≤ fuel) :
    view (absorb fuel h data) = feed 64 hashBytes (view h) data := by
  induction fuel generalizing h data with
  | zero =>
    rw [List.length_eq_zero_iff.mp (Nat.le_zero.mp hle)]
    rfl
  | succ fuel ih =>
    cases data with
    | nil => rfl
    | cons b rest =>
      have hne := List.cons_ne_nil b rest
      have hused := length_absorbStep h b rest
      rw [List.length_cons] at hle
      have hsplit : (absorbStep h (b :: rest)).2 =
          (b :: rest).drop (min (64 - h.filled.val) (b :: rest).length) := by
        unfold absorbStep
        dsimp only
        split_ifs <;> rfl
      rw [absorb, if_neg hne, ih (by omega), view_absorbStep h hne, hsplit, ← feed_append,
        List.take_append_drop]

theorem view_update (h : Sha256) (data : List UInt8) :
    view (h.update data) = feed 64 hashBytes (view h) data := view_absorb (Nat.le_refl _)

theorem total_absorb (fuel : ℕ) (h : Sha256) (data : List UInt8) :
    (absorb fuel h data).total = h.total := by
  induction fuel generalizing h data with
  | zero => rfl
  | succ fuel ih =>
    have hstep : (absorbStep h data).1.total = h.total := by
      unfold absorbStep
      dsimp only
      split_ifs <;> rfl
    rw [absorb]
    split_ifs
    · rfl
    · rw [ih, hstep]

theorem total_update (h : Sha256) (data : List UInt8) :
    (h.update data).total = h.total + UInt64.ofNat data.length := total_absorb _ _ _

/-- The hasher after a message in pieces: only the concatenation counts. -/
theorem view_stream (h : Sha256) (pieces : List (List UInt8)) :
    view (pieces.foldl update h) = feed 64 hashBytes (view h) pieces.flatten := by
  induction pieces generalizing h with
  | nil => rfl
  | cons piece pieces ih =>
    rw [List.foldl_cons, ih, view_update, List.flatten_cons, feed_append]

theorem total_stream (h : Sha256) (pieces : List (List UInt8)) :
    (pieces.foldl update h).total = h.total + UInt64.ofNat pieces.flatten.length := by
  induction pieces generalizing h with
  | nil => exact (UInt64.add_zero _).symm
  | cons piece pieces ih =>
    rw [List.foldl_cons, ih, total_update, List.flatten_cons, List.length_append, UInt64.ofNat_add,
      UInt64.add_assoc]

/-! ## The padding -/

/-- The number of zero bytes after the `0x80`, when `filled` bytes wait in the block. -/
def zeroBytes (filled : ℕ) : ℕ := (56 + 64 - filled) % 64

theorem filled_update_byte (h : Sha256) (b : UInt8) :
    (h.update [b]).filled.val = (h.filled.val + 1) % 64 := by
  have hlt := h.filled.isLt
  rw [← length_pending, view_update]
  show (push 64 hashBytes (view h) b).2.length = _
  by_cases hfull : h.filled.val + 1 = 64
  · rw [push, if_pos (by rw [length_pending]; exact hfull), hfull]
    rfl
  · rw [push, if_neg (by rw [length_pending]; exact hfull), List.length_append, length_pending,
      List.length_singleton, Nat.mod_eq_of_lt (by omega)]

theorem padZeros_stop {h : Sha256} {fuel : ℕ} (hz : zeroBytes h.filled.val = 0) :
    padZeros fuel h = h := by
  have hlt := h.filled.isLt
  have h56 : h.filled.val = 56 := by
    rw [zeroBytes] at hz
    omega
  cases fuel with
  | zero => rfl
  | succ fuel => exact if_pos (Fin.ext h56)

theorem padZeros_next {h : Sha256} {fuel z : ℕ} (hz : zeroBytes h.filled.val = z + 1) :
    padZeros (fuel + 1) h =
      padZeros fuel { h.update [0] with total := (h.update [0]).total - 1 } := by
  apply if_neg
  intro h56
  rw [h56] at hz
  exact Nat.succ_ne_zero z hz.symm

theorem zeroBytes_next {h : Sha256} {z : ℕ} (hz : zeroBytes h.filled.val = z + 1) :
    zeroBytes (h.update [0]).filled.val = z := by
  have hlt := h.filled.isLt
  rw [zeroBytes, filled_update_byte]
  rw [zeroBytes] at hz
  omega

/-- **The padding loop.** It ends with the block filled up to the place of the length, and has fed
zero bytes. -/
theorem padZeros_done {h : Sha256} {fuel : ℕ} (hfuel : zeroBytes h.filled.val ≤ fuel) :
    (padZeros fuel h).filled.val = 56 ∧ view (padZeros fuel h) =
      feed 64 hashBytes (view h) (List.replicate (zeroBytes h.filled.val) 0) := by
  generalize hz : zeroBytes h.filled.val = z at hfuel
  induction z generalizing h fuel with
  | zero =>
    have hlt := h.filled.isLt
    rw [padZeros_stop hz]
    rw [zeroBytes] at hz
    exact ⟨by omega, rfl⟩
  | succ z ih =>
    obtain ⟨k, rfl⟩ : ∃ k, fuel = k + 1 := ⟨fuel - 1, by omega⟩
    obtain ⟨hdone, hview⟩ := ih (h := { h.update [0] with total := (h.update [0]).total - 1 })
      (zeroBytes_next hz) (Nat.le_of_succ_le_succ hfuel)
    rw [padZeros_next hz]
    refine ⟨hdone, hview.trans ?_⟩
    show feed 64 hashBytes (view (h.update [0])) _ = _
    rw [view_update, ← feed_append, List.replicate_succ]
    rfl

/-- More iterations of the padding loop change nothing. -/
theorem padZeros_of_le {h : Sha256} {fuel fuel' : ℕ} (hle : zeroBytes h.filled.val ≤ fuel)
    (hle' : zeroBytes h.filled.val ≤ fuel') : padZeros fuel h = padZeros fuel' h := by
  generalize hz : zeroBytes h.filled.val = z at hle hle'
  induction z generalizing h fuel fuel' with
  | zero =>
    rw [padZeros_stop hz, padZeros_stop hz]
  | succ z ih =>
    obtain ⟨k, rfl⟩ : ∃ k, fuel = k + 1 := ⟨fuel - 1, by omega⟩
    obtain ⟨k', rfl⟩ : ∃ k', fuel' = k' + 1 := ⟨fuel' - 1, by omega⟩
    rw [padZeros_next hz, padZeros_next hz]
    exact ih (zeroBytes_next hz) (Nat.le_of_succ_le_succ hle) (Nat.le_of_succ_le_succ hle')

theorem zeroBytes_lt (filled : ℕ) : zeroBytes filled < 64 := Nat.mod_lt _ (by decide)

/-- The bytes that `finish` adds to a message of `len` bytes. -/
def tail (len bits : ℕ) : List UInt8 :=
  [0x80] ++ List.replicate (zeroBytes ((len + 1) % 64)) 0 ++ beBytes 8 bits

theorem length_beBytes (len v : ℕ) : (beBytes len v).length = len := by
  rw [beBytes, List.length_map, List.length_range]

/-- The words that `finish` gives out. -/
def lastState (h : Sha256) : Vector UInt32 8 :=
  let padded := padZeros 64 { h.update [0x80] with total := (h.update [0x80]).total - 1 }
  compress padded.state (fill padded.block 56 (beBytes 8 (h.total * 8).toNat))

/-- `finish` feeds the padding, which completes the last block. -/
theorem words_lastState (h : Sha256) : words (lastState h) =
    (feed 64 hashBytes (view h) (tail h.filled.val (h.total * 8).toNat)).1 := by
  have hmark : view { h.update [0x80] with total := (h.update [0x80]).total - 1 } =
      feed 64 hashBytes (view h) [0x80] := view_update h [0x80]
  have hbyte := filled_update_byte h 0x80
  have hpad : zeroBytes (h.update [0x80]).filled.val ≤ 64 := Nat.le_of_lt (zeroBytes_lt _)
  obtain ⟨hdone, hview⟩ :=
    @padZeros_done { h.update [0x80] with total := (h.update [0x80]).total - 1 } 64 hpad
  rw [hmark, hbyte, ← feed_append] at hview
  rw [tail, feed_append, ← hview, lastState]
  dsimp only
  generalize padZeros 64 _ = padded at hdone
  have hlen : (view padded).2.length + (beBytes 8 (h.total * 8).toNat).length = 64 := by
    rw [length_pending, hdone, length_beBytes]
  have hfill := take_fill padded.block 56 (beBytes 8 (h.total * 8).toNat) (by rw [length_beBytes])
  rw [length_beBytes, List.take_of_length_le (by rw [Vector.length_toList])] at hfill
  rw [feed_of_eq (List.ne_nil_of_length_pos (by rw [length_beBytes]; decide)) hlen, words_compress,
    hfill, ← hdone]
  rfl

theorem finish_eq (h : Sha256) : finish h = Vector.ofFn fun i =>
    (beBytes 4 ((lastState h)[i.val / 4]?.getD 0).toNat)[i.val % 4]?.getD 0 := rfl

/-! ## Digests as bits -/

theorem beBytes_succ (len v : ℕ) :
    beBytes (len + 1) v = UInt8.ofNat (v / 256 ^ len) :: beBytes len v := by
  rw [beBytes, List.range_succ_eq_map, List.map_cons, List.map_map]
  congr 1
  apply List.map_congr_left
  intro i hi
  show UInt8.ofNat (v / 256 ^ (len + 1 - 1 - (i + 1))) = _
  congr 3
  omega

/-- The big-endian bytes of a number write its bits. -/
theorem bytesBits_beBytes (len v : ℕ) : bytesBits (beBytes len v) = bitsOfNat (8 * len) v := by
  induction len with
  | zero => rfl
  | succ len ih =>
    have hpow : 256 ^ len = 2 ^ (8 * len) := by rw [Nat.pow_mul]
    rw [beBytes_succ, Nat.mul_succ, Nat.add_comm, bitsOfNat_add, ← ih, bytesBits, List.flatMap_cons,
      UInt8.toNat_ofNat', bitsOfNat_mod, hpow]
    rfl

/-- The digest writes the words of the last state. -/
theorem bytesBits_finish (h : Sha256) :
    bytesBits (finish h).toList = (words (lastState h)).bits := by
  have hlen (x : UInt32) : (beBytes 4 x.toNat).length = 4 := length_beBytes 4 _
  have hbytes : (finish h).toList = (lastState h).toList.flatMap fun x => beBytes 4 x.toNat := by
    apply List.ext_getElem?
    intro i
    rw [getElem?_flatMap_of (by decide) hlen, finish_eq, Vector.getElem?_toList,
      Vector.getElem?_toList]
    by_cases hi : i < 32
    · have hword : i / 4 < 8 := by omega
      have hbyte : i % 4 < (beBytes 4 (lastState h)[i / 4].toNat).length := by
        rw [length_beBytes]
        omega
      rw [Vector.getElem?_eq_getElem hi, Vector.getElem_ofFn, Vector.getElem?_eq_getElem hword,
        Option.bind_some, Option.getD_some, List.getElem?_eq_getElem hbyte]
      rfl
    · rw [Vector.getElem?_eq_none (by omega), Vector.getElem?_eq_none (by omega)]
      rfl
  rw [hbytes, bytesBits, List.flatMap_assoc]
  have hword (x : UInt32) : ((beBytes 4 x.toNat).flatMap fun b => bitsOfNat 8 b.toNat) =
      bitsOfNat 32 x.toNat := bytesBits_beBytes 4 x.toNat
  simp only [hword]
  obtain ⟨⟨l⟩, hl⟩ := lastState h
  match l, hl with
  | [_, _, _, _, _, _, _, _], _ => rfl

/-- The padding of `finish` is the standard's. -/
theorem pad_bytesBits (message : List UInt8) {bits : ℕ}
    (hbits : bits % 2 ^ 64 = 8 * message.length % 2 ^ 64) :
    pad (bytesBits message) = bytesBits (message ++ tail message.length bits) := by
  have hmark : bytesBits [0x80] = [true] ++ List.replicate 7 false := by decide
  have hzero (z : ℕ) : bytesBits (List.replicate z 0) = List.replicate (8 * z) false := by
    rw [bytesBits, List.flatMap_replicate, Nat.mul_comm, ← List.flatten_replicate_replicate]
    rfl
  have hcount : zeros (8 * message.length) =
      7 + 8 * zeroBytes ((message.length + 1) % 64) := by
    rw [zeros_eq, zeroBytes]
    omega
  have hlength : bytesBits (beBytes 8 bits) = bitsOfNat 64 (8 * message.length) := by
    rw [bytesBits_beBytes, ← bitsOfNat_mod, hbits, bitsOfNat_mod]
  rw [tail, bytesBits_append, bytesBits_append, bytesBits_append, hmark, hzero, hlength, pad,
    length_bytesBits, hcount, List.replicate_add]
  simp only [List.append_assoc]

theorem words_injective {s s' : Vector UInt32 8} (h : words s = words s') : s = s' := by
  obtain ⟨h0, h1, h2, h3, h4, h5, h6, h7⟩ := Work.mk.inj h
  apply Vector.ext
  intro i hi
  match i, hi with
  | 0, _ => exact UInt32.toBitVec_inj.mp h0
  | 1, _ => exact UInt32.toBitVec_inj.mp h1
  | 2, _ => exact UInt32.toBitVec_inj.mp h2
  | 3, _ => exact UInt32.toBitVec_inj.mp h3
  | 4, _ => exact UInt32.toBitVec_inj.mp h4
  | 5, _ => exact UInt32.toBitVec_inj.mp h5
  | 6, _ => exact UInt32.toBitVec_inj.mp h6
  | 7, _ => exact UInt32.toBitVec_inj.mp h7

/-- The digest depends on what has been fed and on how much. -/
theorem finish_congr {h h' : Sha256} (hview : view h = view h') (htotal : h.total = h'.total) :
    finish h = finish h' := by
  have hfilled : h.filled.val = h'.filled.val := by
    rw [← length_pending, hview, length_pending]
  have hstate : lastState h = lastState h' := by
    apply words_injective
    rw [words_lastState, words_lastState, hview, htotal, hfilled]
  rw [finish_eq, finish_eq, hstate]

/-! ## Messages in pieces -/

theorem tail_mod (len bits : ℕ) : tail (len % 64) bits = tail len bits := by
  rw [tail, tail, Nat.mod_add_mod]

/-- The length in bits, as `finish` writes it. -/
theorem bits_mod (len : ℕ) :
    ((0 + UInt64.ofNat len) * 8).toNat % 2 ^ 64 = 8 * len % 2 ^ 64 := by
  rw [UInt64.zero_add, UInt64.toNat_mul, UInt64.toNat_ofNat', Nat.mod_mod, Nat.mul_comm]
  exact Nat.mul_mod_mod 8 len (2 ^ 64)

/-- The digest of a message in pieces is the standard's digest of the message. -/
theorem bytesBits_stream (pieces : List (List UInt8)) :
    bytesBits (pieces.foldl update new).finish.toList =
      Fips180.sha256 (bytesBits pieces.flatten) := by
  have hview := view_stream new pieces
  have htotal : (pieces.foldl update new).total = 0 + UInt64.ofNat pieces.flatten.length :=
    total_stream new pieces
  have hfilled := length_pending (pieces.foldl update new)
  rw [view_new] at hview
  rw [hview, feed_eq_run (by decide), length_rest] at hfilled
  rw [bytesBits_finish, words_lastState, htotal, hview, ← hfilled, tail_mod, ← feed_append,
    feed_eq_run (by decide), Fips180.sha256, pad_bytesBits _ (bits_mod _)]
  exact congrArg Work.bits (run_flatMap (by decide) length_byteBits initial _).symm

end Sha256

/-- `measure_with_flipped_byte` (`measure.rs`, lines 67–74). In an empty image the index is out of
bounds. -/
def measureWithFlippedByte (init : List UInt8) (pos : ℕ) : Option (Vector UInt8 32) :=
  let pos := min pos (init.length - 1)
  init[pos]?.map fun b =>
    (((Sha256.new.update (init.take pos)).update [b ^^^ 0xff]).update (init.drop (pos + 1))).finish

namespace Sha256

/-- **SHA-256 in pieces.** However a message is cut into pieces, the hasher gives the standard's
digest of the message, which is that of `digest`; the loop that pads it ends. The measurement with a
flipped byte is the digest of the image with that byte complemented. -/
theorem stream_eq_standard :
    (∀ pieces : List (List UInt8),
      bytesBits (pieces.foldl update new).finish.toList =
        Fips180.sha256 (bytesBits pieces.flatten) ∧
      (pieces.foldl update new).finish = digest pieces.flatten) ∧
    (∀ (h : Sha256) (fuel : ℕ), 64 ≤ fuel →
      (padZeros fuel h).filled = 56 ∧ padZeros fuel h = padZeros 64 h) ∧
    ∀ (init : List UInt8) (pos : ℕ) (hpos : pos < init.length),
      measureWithFlippedByte init pos = some (digest (init.set pos (~~~init[pos]))) := by
  have hcut (pieces : List (List UInt8)) :
      (pieces.foldl update new).finish = digest pieces.flatten := by
    apply finish_congr
    · rw [view_stream, view_update]
    · rw [total_stream, total_update]
  refine ⟨fun pieces => ⟨bytesBits_stream pieces, hcut pieces⟩, ?_, ?_⟩
  · intro h fuel hfuel
    have hzero := zeroBytes_lt h.filled.val
    exact ⟨Fin.ext (padZeros_done (by omega)).1, padZeros_of_le (by omega) (by omega)⟩
  · intro init pos hpos
    have hmin : min pos (init.length - 1) = pos := by omega
    have hflip : init[pos] ^^^ 0xff = ~~~init[pos] := UInt8.xor_neg_one
    have hpieces := hcut [init.take pos, [~~~init[pos]], init.drop (pos + 1)]
    simp only [List.foldl_cons, List.foldl_nil, List.flatten_cons, List.flatten_nil,
      List.append_nil, List.singleton_append] at hpieces
    rw [measureWithFlippedByte, hmin, List.getElem?_eq_getElem hpos, Option.map_some, hflip,
      hpieces, List.set_eq_take_append_cons_drop, if_pos hpos]

/-- The last of three bytes flipped. -/
theorem stream_eq_standard_threeBytes :
    measureWithFlippedByte [1, 2, 3] 2 = some (digest [1, 2, 0xfc]) := by
  have hflip : ([1, 2, 3] : List UInt8).set 2 (~~~3) = [1, 2, 0xfc] := by decide
  have h := stream_eq_standard.2.2 [1, 2, 3] 2 (by decide)
  rw [← hflip]
  exact h

end Sha256

end JungeyOs
