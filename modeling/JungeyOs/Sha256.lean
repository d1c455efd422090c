import Mathlib.Data.UInt
import Mathlib.Data.Fin.VecNotation
import Mathlib.Data.List.Basic

/-!
# SHA-256 as the kernel computes it

Model of `kernel/src/sha256.rs`. The hasher takes its input in pieces of any
length: `update` fills a block of 64 bytes and compresses it each time it is full.
Between two steps of that loop fewer than 64 bytes are in the block, which is the
bound in `Sha256.filled`.

Results:
* `absorb_of_le`: the loop of `update` ends when the data is used up.
-/

namespace JungeyOs

/-- The round constants (lines 15–24). -/
def SHA256_K : Vector UInt32 64 := #v[
  0x428a2f98, 0x71374491, 0xb5c0fbcf, 0xe9b5dba5, 0x3956c25b, 0x59f111f1, 0x923f82a4, 0xab1c5ed5,
  0xd807aa98, 0x12835b01, 0x243185be, 0x550c7dc3, 0x72be5d74, 0x80deb1fe, 0x9bdc06a7, 0xc19bf174,
  0xe49b69c1, 0xefbe4786, 0x0fc19dc6, 0x240ca1cc, 0x2de92c6f, 0x4a7484aa, 0x5cb0a9dc, 0x76f988da,
  0x983e5152, 0xa831c66d, 0xb00327c8, 0xbf597fc7, 0xc6e00bf3, 0xd5a79147, 0x06ca6351, 0x14292967,
  0x27b70a85, 0x2e1b2138, 0x4d2c6dfc, 0x53380d13, 0x650a7354, 0x766a0abb, 0x81c2c92e, 0x92722c85,
  0xa2bfe8a1, 0xa81a664b, 0xc24b8b70, 0xc76c51a3, 0xd192e819, 0xd6990624, 0xf40e3585, 0x106aa070,
  0x19a4c116, 0x1e376c08, 0x2748774c, 0x34b0bcb5, 0x391c0cb3, 0x4ed8aa4a, 0x5b9cca4f, 0x682e6ff3,
  0x748f82ee, 0x78a5636f, 0x84c87814, 0x8cc70208, 0x90befffa, 0xa4506ceb, 0xbef9a3f7, 0xc67178f2]

/-- The initial hash value (lines 26–28). -/
def SHA256_INIT : Vector UInt32 8 := #v[
  0x6a09e667, 0xbb67ae85, 0x3c6ef372, 0xa54ff53a, 0x510e527f, 0x9b05688c, 0x1f83d9ab, 0x5be0cd19]

/-- `Sha256` (lines 30–35). -/
structure Sha256 where
  state : Vector UInt32 8
  block : Vector UInt8 64
  filled : Fin 64
  total : UInt64

namespace Sha256

/-- `Sha256::new` (lines 44–46). -/
def new : Sha256 := ⟨SHA256_INIT, Vector.replicate 64 0, 0, 0⟩

/-- `u32::rotate_right`. -/
def rotateRight (x : UInt32) (n : UInt32) : UInt32 := (x >>> n) ||| (x <<< (32 - n))

/-- `u32::from_be_bytes` of four consecutive bytes. -/
def beWord (block : Vector UInt8 64) (i : ℕ) : UInt32 :=
  (block[i]?.getD 0).toUInt32 <<< 24 ||| (block[i + 1]?.getD 0).toUInt32 <<< 16 |||
    (block[i + 2]?.getD 0).toUInt32 <<< 8 ||| (block[i + 3]?.getD 0).toUInt32

/-- One word of the message schedule (lines 95–102). -/
def scheduleStep (w : Vector UInt32 64) (i : ℕ) : Vector UInt32 64 :=
  let word j := w[j]?.getD 0
  let s0 := rotateRight (word (i - 15)) 7 ^^^ rotateRight (word (i - 15)) 18 ^^^ (word (i - 15) >>> 3)
  let s1 := rotateRight (word (i - 2)) 17 ^^^ rotateRight (word (i - 2)) 19 ^^^ (word (i - 2) >>> 10)
  w.setIfInBounds i (word (i - 16) + s0 + word (i - 7) + s1)

/-- The message schedule (lines 86–102). -/
def schedule (block : Vector UInt8 64) : Vector UInt32 64 :=
  (List.range' 16 48).foldl scheduleStep
    (Vector.ofFn fun i => if i.val < 16 then beWord block (i.val * 4) else 0)

/-- One round (lines 105–124), on the eight working variables. -/
def round (w : Vector UInt32 64) (h : Vector UInt32 8) (i : ℕ) : Vector UInt32 8 :=
  let s1 := rotateRight h[4] 6 ^^^ rotateRight h[4] 11 ^^^ rotateRight h[4] 25
  let ch := (h[4] &&& h[5]) ^^^ (~~~h[4] &&& h[6])
  let t1 := h[7] + s1 + ch + SHA256_K[i]?.getD 0 + w[i]?.getD 0
  let s0 := rotateRight h[0] 2 ^^^ rotateRight h[0] 13 ^^^ rotateRight h[0] 22
  let maj := (h[0] &&& h[1]) ^^^ (h[0] &&& h[2]) ^^^ (h[1] &&& h[2])
  let t2 := s0 + maj
  #v[t1 + t2, h[0], h[1], h[2], h[3] + t1, h[4], h[5], h[6]]

/-- `Sha256::compress` (lines 85–128). -/
def compress (state : Vector UInt32 8) (block : Vector UInt8 64) : Vector UInt32 8 :=
  let w := schedule block
  let h := (List.range 64).foldl (round w) state
  Vector.ofFn fun i => state[i] + h[i]

/-- The bytes `data` go into the block from `filled` on. -/
def fill (block : Vector UInt8 64) (filled : ℕ) (data : List UInt8) : Vector UInt8 64 :=
  Vector.ofFn fun i =>
    if filled ≤ i.val then data[i.val - filled]?.getD block[i] else block[i]

/-- One iteration of the loop of `update` (lines 51–59): as much of the data as
fits goes into the block, and a full block is compressed. -/
def absorbStep (h : Sha256) (data : List UInt8) : Sha256 × List UInt8 :=
  let n := min (64 - h.filled.val) data.length
  let block := fill h.block h.filled (data.take n)
  if hfull : h.filled.val + n < 64 then
    ({ h with block := block, filled := ⟨h.filled.val + n, hfull⟩ }, data.drop n)
  else ({ h with block := block, state := compress h.state block, filled := 0 }, data.drop n)

/-- The loop of `update` with at most `fuel` iterations. -/
def absorb : (fuel : ℕ) → Sha256 → List UInt8 → Sha256
  | 0, h, _ => h
  | fuel + 1, h, data =>
    if data = [] then h else absorb fuel (absorbStep h data).1 (absorbStep h data).2

/-- `Sha256::update` (lines 48–61). Each iteration uses at least one byte, so
`data.length` iterations are enough. -/
def update (h : Sha256) (data : List UInt8) : Sha256 :=
  absorb data.length { h with total := h.total + UInt64.ofNat data.length } data

/-- The padding loop of `finish` (lines 69–72), with at most `fuel` iterations. -/
def padZeros : (fuel : ℕ) → Sha256 → Sha256
  | 0, h => h
  | fuel + 1, h =>
    if h.filled = 56 then h
    else
      let h := h.update [0]
      padZeros fuel { h with total := h.total - 1 }

/-- The big-endian bytes of a number. -/
def beBytes (len v : ℕ) : List UInt8 :=
  (List.range len).map fun i => UInt8.ofNat (v / 256 ^ (len - 1 - i))

/-- `Sha256::finish` (lines 63–83). After 64 iterations of the padding loop every
fill level has come up. -/
def finish (h : Sha256) : Vector UInt8 32 :=
  let bits := h.total * 8
  let h := h.update [0x80]
  let h := padZeros 64 { h with total := h.total - 1 }
  let block := fill h.block 56 (beBytes 8 bits.toNat)
  let state := compress h.state block
  Vector.ofFn fun i => (beBytes 4 (state[i.val / 4]?.getD 0).toNat)[i.val % 4]?.getD 0

/-- An iteration of the loop uses at least one byte, since the block is not full. -/
theorem length_absorbStep (h : Sha256) (b : UInt8) (rest : List UInt8) :
    (absorbStep h (b :: rest)).2.length ≤ rest.length := by
  have hfilled := h.filled.isLt
  unfold absorbStep
  dsimp only
  split_ifs <;> simp only [List.length_drop, List.length_cons] <;> omega

/-- The loop of `update` ends when the data is used up: more iterations change
nothing. -/
theorem absorb_of_le {h : Sha256} {data : List UInt8} {fuel fuel' : ℕ} (hle : data.length ≤ fuel)
    (hle' : data.length ≤ fuel') : absorb fuel h data = absorb fuel' h data := by
  induction fuel generalizing h data fuel' with
  | zero =>
    rw [List.length_eq_zero_iff.mp (Nat.le_zero.mp hle)]
    cases fuel' <;> rfl
  | succ fuel ih =>
    cases data with
    | nil => cases fuel' <;> rfl
    | cons b rest =>
      have hused := length_absorbStep h b rest
      rw [List.length_cons] at hle hle'
      obtain ⟨k, rfl⟩ : ∃ k, fuel' = k + 1 := ⟨fuel' - 1, by omega⟩
      rw [absorb, absorb, if_neg (List.cons_ne_nil _ _), if_neg (List.cons_ne_nil _ _)]
      exact ih (by omega) (by omega)

end Sha256

/-- `digest` (lines 131–135). -/
def digest (data : List UInt8) : Vector UInt8 32 := (Sha256.new.update data).finish

end JungeyOs
