import Mathlib.Data.List.Basic
import Mathlib.Logic.Function.Basic
import JungeyOs.Lib.Bytes

/-!
# The block device, as the kernel sees it

`kernel/src/blk.rs` reaches the disk through a driver process: `write_sector`
and `read_sector` send a request and wait for the reply. To the callers modelled
here a call has one of a few fates, and a `Device` carries the fates of the calls
to come, so that a theorem about every device is a theorem about every list of
fates. A single sector write lands whole or not at all.

Code that talks to the disk is a computation in `Blk`. It ends with a value
(`Ok`), with an `Err`, or it halts: the power goes, or the kernel panics and its
panic handler stops the machine. Sums and differences of `u64` are checked, as in
the overflow-checked profile: one that does not fit panics.

Results:
* `writeSector_cases`: everything a `write_sector` call can do.
* `forRange_ok`: what holds after a loop that ran to its end.
* `Touches.bind`, `Touches.forRange`: which sectors a computation can change.
* `Replays.bind`, `Replays.forRange`: a computation that ended well does so again
  on the same disk without faults.
-/

namespace JungeyOs

/-- `blk::SECTOR_SIZE` (`blk.rs`, line 13). -/
def SECTOR_SIZE : ℕ := 512

/-- `[u8; SECTOR_SIZE]`. -/
abbrev Sector := Vector UInt8 SECTOR_SIZE

/-- The contents of every sector, by number. -/
abbrev Disk := ℕ → Sector

/-- What becomes of one `write_sector` call. -/
inductive WriteFate
  /-- The sector lands and the call returns `Ok`. -/
  | ok
  /-- The call returns `Err` and the sector never reaches the disk. -/
  | lost
  /-- The call returns `Err`, but the driver executes the queued request. -/
  | landed
  /-- The power goes before the sector lands. -/
  | cutBefore
  /-- The power goes after the sector landed and before the call returns. -/
  | cutAfter
  deriving DecidableEq, Repr

/-- What becomes of one `read_sector` call. -/
inductive ReadFate
  | ok
  | fail
  deriving DecidableEq, Repr

/-- A disk, the fates of the calls to come (every call past the end of a list
goes well), and the sectors that landed so far, oldest first. A sector number at
or beyond `capacity` is refused. -/
structure Device where
  capacity : ℕ
  disk : Disk
  writes : List WriteFate := []
  reads : List ReadFate := []
  trace : List (ℕ × Sector) := []

/-- The sector lands. -/
def Device.store (d : Device) (sector : ℕ) (data : Sector) : Device :=
  { d with disk := Function.update d.disk sector data, trace := d.trace ++ [(sector, data)] }

/-- The fate of the next write of `sector`. A sector that the disk does not have
is refused, and never lands. -/
def Device.nextWrite (d : Device) (sector : ℕ) : WriteFate :=
  match d.writes.headD .ok with
  | .cutBefore => .cutBefore
  | .cutAfter => if d.capacity ≤ sector then .cutBefore else .cutAfter
  | fate => if d.capacity ≤ sector then .lost else fate

theorem Device.store_disk_of_ne (d : Device) (data : Sector) {sector x : ℕ} (h : x ≠ sector) :
    (d.store sector data).disk x = d.disk x :=
  Function.update_of_ne h _ _

/-- Why a computation stopped the machine. -/
inductive Halt
  | panic
  | powerOff
  deriving DecidableEq, Repr

/-- How a computation ends. -/
inductive Exit (α : Type)
  | ok (a : α)
  | err (msg : String)
  | halted (why : Halt)
  deriving DecidableEq

/-- A computation that talks to the disk. -/
def Blk (α : Type) := Device → Exit α × Device

namespace Blk

variable {α β : Type}

protected def pure (a : α) : Blk α := fun d => (.ok a, d)

/-- Sequencing; an `Err` is passed on, as by the `?` operator. -/
protected def bind (m : Blk α) (f : α → Blk β) : Blk β := fun d =>
  match m d with
  | (.ok a, d') => f a d'
  | (.err e, d') => (.err e, d')
  | (.halted h, d') => (.halted h, d')

instance : Monad Blk where
  pure := Blk.pure
  bind := Blk.bind

/-- Return `Err(msg)`. -/
def fail (msg : String) : Blk α := fun d => (.err msg, d)

/-- Stop the machine. -/
def halt (why : Halt) : Blk α := fun d => (.halted why, d)

/-- Run `m` and hand its `Ok` or `Err` to the caller. -/
def attempt (m : Blk α) : Blk (Except String α) := fun d =>
  match m d with
  | (.ok a, d') => (.ok (.ok a), d')
  | (.err e, d') => (.ok (.error e), d')
  | (.halted h, d') => (.halted h, d')

@[simp] theorem pure_apply (a : α) (d : Device) : (pure a : Blk α) d = (.ok a, d) := rfl

@[simp] theorem fail_apply (msg : String) (d : Device) : (fail msg : Blk α) d = (.err msg, d) := rfl

@[simp] theorem halt_apply (why : Halt) (d : Device) : (halt why : Blk α) d = (.halted why, d) := rfl

theorem bind_apply (m : Blk α) (f : α → Blk β) (d : Device) :
    (m >>= f) d = match m d with
      | (.ok a, d') => f a d'
      | (.err e, d') => (.err e, d')
      | (.halted h, d') => (.halted h, d') := rfl

theorem bind_of_ok {m : Blk α} {f : α → Blk β} {d d' : Device} {a : α} (h : m d = (.ok a, d')) :
    (m >>= f) d = f a d' := by
  rw [bind_apply, h]

theorem bind_of_err {m : Blk α} {f : α → Blk β} {d d' : Device} {e : String}
    (h : m d = (.err e, d')) : (m >>= f) d = (.err e, d') := by
  rw [bind_apply, h]

theorem bind_of_halted {m : Blk α} {f : α → Blk β} {d d' : Device} {why : Halt}
    (h : m d = (.halted why, d')) : (m >>= f) d = (.halted why, d') := by
  rw [bind_apply, h]

theorem attempt_of_ok {m : Blk α} {d d' : Device} {a : α} (h : m d = (.ok a, d')) :
    attempt m d = (.ok (.ok a), d') := by
  rw [attempt, h]

theorem attempt_of_err {m : Blk α} {d d' : Device} {e : String} (h : m d = (.err e, d')) :
    attempt m d = (.ok (.error e), d') := by
  rw [attempt, h]

theorem pure_eq_ok {a b : α} {d d' : Device} (h : (pure a : Blk α) d = (.ok b, d')) :
    b = a ∧ d' = d := by
  obtain ⟨hb, hd⟩ := Prod.mk.inj h
  exact ⟨(Exit.ok.inj hb).symm, hd.symm⟩

theorem attempt_eq_ok {m : Blk α} {d d' : Device} {a : α} (h : attempt m d = (.ok (.ok a), d')) :
    m d = (.ok a, d') := by
  unfold attempt at h
  split at h <;> cases h
  assumption

@[simp] theorem pure_bind_apply (a : α) (f : α → Blk β) (d : Device) :
    ((pure a : Blk α) >>= f) d = f a d := rfl

/-- A sequence that ended well went through an intermediate result. -/
theorem bind_eq_ok {m : Blk α} {f : α → Blk β} {d d'' : Device} {b : β}
    (h : (m >>= f) d = (.ok b, d'')) : ∃ a d', m d = (.ok a, d') ∧ f a d' = (.ok b, d'') := by
  rw [bind_apply] at h
  split at h
  · exact ⟨_, _, by assumption, h⟩
  · cases h
  · cases h

theorem bind_assoc {γ : Type} (m : Blk α) (f : α → Blk β) (g : β → Blk γ) :
    (m >>= f) >>= g = m >>= fun a => f a >>= g := by
  funext d
  rw [bind_apply, bind_apply, bind_apply]
  match m d with
  | (.ok a, d') => rfl
  | (.err e, d') => rfl
  | (.halted h, d') => rfl

/-! ## Checked arithmetic -/

/-- `a + b` on `u64`. -/
def addU64 (a b : UInt64) : Blk UInt64 :=
  if a.toNat + b.toNat < 2 ^ 64 then pure (a + b) else halt .panic

/-- `a - b` on `u64`. -/
def subU64 (a b : UInt64) : Blk UInt64 :=
  if b.toNat ≤ a.toNat then pure (a - b) else halt .panic

/-- `a * b` on `u64`. -/
def mulU64 (a b : UInt64) : Blk UInt64 :=
  if a.toNat * b.toNat < 2 ^ 64 then pure (a * b) else halt .panic

theorem addU64_cases (a b : UInt64) (d : Device) :
    (∃ c : UInt64, addU64 a b d = (.ok c, d) ∧ c.toNat = a.toNat + b.toNat) ∨
      (addU64 a b d = (.halted .panic, d) ∧ 2 ^ 64 ≤ a.toNat + b.toNat) := by
  unfold addU64
  split_ifs with h
  · exact .inl ⟨a + b, rfl, by rw [UInt64.toNat_add, Nat.mod_eq_of_lt h]⟩
  · exact .inr ⟨rfl, by omega⟩

theorem subU64_cases (a b : UInt64) (d : Device) :
    (∃ c : UInt64, subU64 a b d = (.ok c, d) ∧ c.toNat = a.toNat - b.toNat ∧
      b.toNat ≤ a.toNat) ∨ (subU64 a b d = (.halted .panic, d) ∧ a.toNat < b.toNat) := by
  unfold subU64
  split_ifs with h
  · exact .inl ⟨a - b, rfl, UInt64.toNat_sub_of_le _ _ (UInt64.le_iff_toNat_le.mpr h), h⟩
  · exact .inr ⟨rfl, by omega⟩

theorem mulU64_cases (a b : UInt64) (d : Device) :
    (∃ c : UInt64, mulU64 a b d = (.ok c, d) ∧ c.toNat = a.toNat * b.toNat) ∨
      (mulU64 a b d = (.halted .panic, d) ∧ 2 ^ 64 ≤ a.toNat * b.toNat) := by
  unfold mulU64
  split_ifs with h
  · exact .inl ⟨a * b, rfl, by rw [UInt64.toNat_mul, Nat.mod_eq_of_lt h]⟩
  · exact .inr ⟨rfl, by omega⟩

theorem mulU64_of_lt {a b : UInt64} (h : a.toNat * b.toNat < 2 ^ 64) (d : Device) :
    ∃ c : UInt64, mulU64 a b d = (.ok c, d) ∧ c.toNat = a.toNat * b.toNat := by
  rcases mulU64_cases a b d with ⟨c, hc, heq⟩ | ⟨-, hge⟩
  · exact ⟨c, hc, heq⟩
  · omega

theorem mulU64_ok {a b c : UInt64} {d d' : Device} (h : mulU64 a b d = (.ok c, d')) :
    c.toNat = a.toNat * b.toNat ∧ d = d' := by
  rcases mulU64_cases a b d with ⟨c', hc, heq⟩ | ⟨hh, -⟩
  · rw [hc] at h
    cases h
    exact ⟨heq, rfl⟩
  · rw [hh] at h
    cases h

theorem addU64_ok {a b c : UInt64} {d d' : Device} (h : addU64 a b d = (.ok c, d')) :
    c.toNat = a.toNat + b.toNat ∧ d = d' := by
  rcases addU64_cases a b d with ⟨c', hc, heq⟩ | ⟨hh, -⟩
  · rw [hc] at h
    cases h
    exact ⟨heq, rfl⟩
  · rw [hh] at h
    cases h

theorem subU64_of_le {a b : UInt64} (h : b.toNat ≤ a.toNat) (d : Device) :
    ∃ c : UInt64, subU64 a b d = (.ok c, d) ∧ c.toNat = a.toNat - b.toNat := by
  rcases subU64_cases a b d with ⟨c, hc, heq, -⟩ | ⟨-, hlt⟩
  · exact ⟨c, hc, heq⟩
  · omega

theorem addU64_of_lt {a b : UInt64} (h : a.toNat + b.toNat < 2 ^ 64) (d : Device) :
    ∃ c : UInt64, addU64 a b d = (.ok c, d) ∧ c.toNat = a.toNat + b.toNat := by
  rcases addU64_cases a b d with ⟨c, hc, heq⟩ | ⟨-, hge⟩
  · exact ⟨c, hc, heq⟩
  · omega

/-- A sum does not depend on the device. -/
theorem addU64_congr {a b : UInt64} {r : Exit UInt64} {d d' : Device}
    (h : addU64 a b d = (r, d')) (e : Device) : addU64 a b e = (r, e) := by
  unfold addU64 at h ⊢
  split_ifs at h ⊢ <;> cases h <;> rfl

theorem subU64_ok {a b c : UInt64} {d d' : Device} (h : subU64 a b d = (.ok c, d')) :
    c.toNat = a.toNat - b.toNat ∧ b.toNat ≤ a.toNat ∧ d = d' := by
  rcases subU64_cases a b d with ⟨c', hc, heq, hle⟩ | ⟨hh, -⟩
  · rw [hc] at h
    cases h
    exact ⟨heq, hle, rfl⟩
  · rw [hh] at h
    cases h

/-! ## Sector calls -/

/-- What a `write_sector` call with this fate does, and what its caller sees. -/
def outcome (fate : WriteFate) (sector : ℕ) (data : Sector) (d : Device) : Exit Unit × Device :=
  match fate with
  | .ok => (.ok (), d.store sector data)
  | .lost => (.err "block driver did not answer", d)
  | .landed => (.err "block driver did not answer", d.store sector data)
  | .cutBefore => (.halted .powerOff, d)
  | .cutAfter => (.halted .powerOff, d.store sector data)

/-- `blk::write_sector` (lines 181–190). -/
def writeSector (sector : ℕ) (data : Sector) : Blk Unit := fun d =>
  outcome (d.nextWrite sector) sector data { d with writes := d.writes.tail }

/-- `blk::read_sector` (lines 168–179). -/
def readSector (sector : ℕ) : Blk Sector := fun d =>
  let d' := { d with reads := d.reads.tail }
  if d.capacity ≤ sector ∨ d.reads.headD .ok = .fail then
    (.err "block driver did not answer", d')
  else (.ok (d.disk sector), d')

/-- Everything a `write_sector` call can do: it returns `Ok` and the sector
landed, or it returns `Err` or the power goes, with the sector landed or not. -/
theorem writeSector_cases (sector : ℕ) (data : Sector) (d : Device) :
    let d' := { d with writes := d.writes.tail }
    (writeSector sector data d = (.ok (), d'.store sector data) ∧
        d.nextWrite sector = .ok ∧ sector < d.capacity) ∨
      ∃ e, (e = .err "block driver did not answer" ∨ e = .halted .powerOff) ∧
        (writeSector sector data d = (e, d') ∨
          writeSector sector data d = (e, d'.store sector data) ∧
            (d.nextWrite sector = .landed ∨ d.nextWrite sector = .cutAfter)) := by
  intro d'
  unfold writeSector
  match h : d.nextWrite sector with
  | .ok =>
    refine .inl ⟨rfl, rfl, ?_⟩
    unfold Device.nextWrite at h
    by_contra hcap
    simp only [if_pos (Nat.le_of_not_lt hcap)] at h
    split at h <;> cases h
  | .lost => exact .inr ⟨_, .inl rfl, .inl rfl⟩
  | .landed => exact .inr ⟨_, .inl rfl, .inr ⟨rfl, .inl rfl⟩⟩
  | .cutBefore => exact .inr ⟨_, .inr rfl, .inl rfl⟩
  | .cutAfter => exact .inr ⟨_, .inr rfl, .inr ⟨rfl, .inr rfl⟩⟩

/-- A sector write that returned `Ok` landed. -/
theorem writeSector_ok {sector : ℕ} {data : Sector} {d d' : Device} {u : Unit}
    (h : writeSector sector data d = (.ok u, d')) :
    sector < d.capacity ∧ d'.capacity = d.capacity ∧
      d'.disk = Function.update d.disk sector data := by
  rcases writeSector_cases sector data d with ⟨hw, -, hcap⟩ | ⟨e, he, hw⟩
  · rw [hw] at h
    cases h
    exact ⟨hcap, rfl, rfl⟩
  · rcases he with rfl | rfl <;> rcases hw with hw | ⟨hw, -⟩ <;> rw [hw] at h <;> cases h

theorem mem_of_nextWrite_landed {d : Device} {sector : ℕ} (h : d.nextWrite sector = .landed) :
    WriteFate.landed ∈ d.writes := by
  unfold Device.nextWrite at h
  cases hw : d.writes with
  | nil =>
    rw [hw] at h
    simp only [List.headD_nil] at h
    split_ifs at h
  | cons fate rest =>
    rw [hw] at h
    cases fate <;> simp only [List.headD_cons] at h
    case landed => exact List.mem_cons_self
    case cutBefore => cases h
    all_goals split_ifs at h

/-- When the power goes the call does not return. -/
theorem writeSector_ne_err {d d' : Device} {sector : ℕ} {data : Sector} {e : String}
    (h : d.nextWrite sector = .cutAfter) : writeSector sector data d ≠ (.err e, d') := by
  unfold writeSector
  rw [h]
  simp [outcome]

/-- A sector that the disk has meets the next fate. -/
theorem writeSector_of_fate {d : Device} {sector : ℕ} {fate : WriteFate} {rest : List WriteFate}
    (data : Sector) (hw : d.writes = fate :: rest) (hcap : sector < d.capacity) :
    writeSector sector data d = outcome fate sector data { d with writes := rest } := by
  have hnot : ¬d.capacity ≤ sector := Nat.not_le.mpr hcap
  have hnext : d.nextWrite sector = fate := by
    unfold Device.nextWrite
    rw [hw]
    cases fate <;> simp [hnot]
  unfold writeSector
  rw [hnext, hw, List.tail_cons]

/-- On a device that refuses nothing more, a sector it has is written. -/
theorem writeSector_of_healthy {sector : ℕ} {d : Device} (data : Sector) (hw : d.writes = [])
    (hcap : sector < d.capacity) : writeSector sector data d = (.ok (), d.store sector data) := by
  have hfate : d.nextWrite sector = .ok := by
    simp [Device.nextWrite, hw, Nat.not_le.mpr hcap]
  unfold writeSector
  rw [hfate]
  cases d
  subst hw
  rfl

/-- Everything a `read_sector` call can do: it returns what the disk holds, or `Err`. -/
theorem readSector_cases (sector : ℕ) (d : Device) :
    let d' := { d with reads := d.reads.tail }
    (readSector sector d = (.ok (d.disk sector), d') ∧ sector < d.capacity ∧
        d.reads.headD .ok = .ok) ∨
      (readSector sector d = (.err "block driver did not answer", d') ∧
        ¬(sector < d.capacity ∧ d.reads.headD .ok = .ok)) := by
  intro d'
  unfold readSector
  dsimp only
  split_ifs with hfail
  · refine .inr ⟨rfl, fun ⟨hcap, hok⟩ => ?_⟩
    rcases hfail with hge | hfail
    · omega
    · rw [hok] at hfail
      cases hfail
  · obtain ⟨hcap, hfate⟩ := not_or.mp hfail
    refine .inl ⟨rfl, by omega, ?_⟩
    cases hhead : d.reads.headD .ok with
    | ok => rfl
    | fail => exact absurd hhead hfate

/-- A sector read that returned `Ok` returned what the disk holds. -/
theorem readSector_ok {sector : ℕ} {raw : Sector} {d d' : Device}
    (h : readSector sector d = (.ok raw, d')) :
    raw = d.disk sector ∧ d' = { d with reads := d.reads.tail } := by
  rcases readSector_cases sector d with ⟨hok, -⟩ | ⟨herr, -⟩
  · rw [hok] at h
    obtain ⟨hraw, hd⟩ := Prod.mk.inj h
    exact ⟨(Exit.ok.inj hraw).symm, hd.symm⟩
  · rw [herr] at h
    cases h

theorem readSector_of_healthy {sector : ℕ} {d : Device} (hr : d.reads = [])
    (hcap : sector < d.capacity) : readSector sector d = (.ok (d.disk sector), d) := by
  unfold readSector
  rw [hr, if_neg (by simp [Nat.not_le.mpr hcap])]
  cases d
  subst hr
  rfl

/-! ## Loops -/

/-- `for s in 0..n { body(s)?; }`. -/
def forRange : (n : ℕ) → (body : ℕ → Blk Unit) → Blk Unit
  | 0, _ => pure ()
  | n + 1, body => forRange n body >>= fun _ => body n

/-- What every iteration carries on holds after a loop that ran to its end. -/
theorem forRange_ok {body : ℕ → Blk Unit} {P : ℕ → Device → Prop} {n : ℕ} {d d' : Device}
    (h0 : P 0 d)
    (hbody : ∀ k e e', k < n → P k e → body k e = (.ok (), e') → P (k + 1) e')
    (h : forRange n body d = (.ok (), d')) : P n d' := by
  induction n generalizing d' with
  | zero => cases h; exact h0
  | succ n ih =>
    obtain ⟨_, e, he, hb⟩ := bind_eq_ok h
    exact hbody n e d' n.lt_succ_self
      (ih (fun k e e' hk => hbody k e e' (Nat.lt_succ_of_lt hk)) he) hb

/-- A loop each of whose iterations goes well goes well. -/
theorem forRange_progress {body : ℕ → Blk Unit} {P : ℕ → Device → Prop} {n : ℕ} {d : Device}
    (h0 : P 0 d) (hbody : ∀ k e, k < n → P k e → ∃ e', body k e = (.ok (), e') ∧ P (k + 1) e') :
    ∃ d', forRange n body d = (.ok (), d') ∧ P n d' := by
  induction n with
  | zero => exact ⟨d, rfl, h0⟩
  | succ n ih =>
    obtain ⟨e, he, hP⟩ := ih fun k e hk => hbody k e (Nat.lt_succ_of_lt hk)
    obtain ⟨e', hb, hP'⟩ := hbody n e n.lt_succ_self hP
    exact ⟨e', (bind_of_ok he).trans hb, hP'⟩

/-! ## What a computation can change -/

/-- Between `d` and `d'` a value `v` landed in a sector `x` only with `R x v`, and
fates were only used up. -/
structure Frame (R : ℕ → Sector → Prop) (d d' : Device) : Prop where
  capacity : d'.capacity = d.capacity
  disk : ∀ x, d'.disk x = d.disk x ∨ R x (d'.disk x)
  writes : d'.writes <:+ d.writes
  trace : ∀ p ∈ d'.trace, p ∈ d.trace ∨ R p.1 p.2
  grows : d.trace <+: d'.trace

theorem Frame.refl {R : ℕ → Sector → Prop} (d : Device) : Frame R d d :=
  ⟨rfl, fun _ => .inl rfl, List.suffix_refl _, fun _ => .inl, List.prefix_refl _⟩

theorem Frame.trans {R : ℕ → Sector → Prop} {d d' d'' : Device} (h : Frame R d d')
    (h' : Frame R d' d'') : Frame R d d'' := by
  refine ⟨h'.capacity.trans h.capacity, fun x => ?_, h'.writes.trans h.writes, fun p hp => ?_,
    h.grows.trans h'.grows⟩
  · rcases h'.disk x with hx | hx
    · rcases h.disk x with hx' | hx'
      · exact .inl (hx.trans hx')
      · exact .inr (hx ▸ hx')
    · exact .inr hx
  · exact (h'.trace p hp).elim (h.trace p) .inr

/-- Whatever the fates, `m` changes sectors only as `R` says. -/
def Touches (R : ℕ → Sector → Prop) (m : Blk α) : Prop := ∀ d, Frame R d (m d).2

theorem Touches.pure {R : ℕ → Sector → Prop} (a : α) : Touches R (Pure.pure a : Blk α) :=
  fun d => .refl d

theorem Touches.fail {R : ℕ → Sector → Prop} (msg : String) : Touches R (Blk.fail msg : Blk α) :=
  fun d => .refl d

theorem Touches.halt {R : ℕ → Sector → Prop} (why : Halt) : Touches R (Blk.halt why : Blk α) :=
  fun d => .refl d

theorem Touches.bind {R : ℕ → Sector → Prop} {m : Blk α} {f : α → Blk β} (hm : Touches R m)
    (hf : ∀ a, Touches R (f a)) : Touches R (m >>= f) := by
  intro d
  have hd := hm d
  rw [bind_apply]
  match hmd : m d with
  | (.ok a, d') => rw [hmd] at hd; exact hd.trans (hf a d')
  | (.err e, d') => rw [hmd] at hd; exact hd
  | (.halted h, d') => rw [hmd] at hd; exact hd

/-- The rest is known to run on a value that the first part returned. -/
theorem Touches.bind_ok {R : ℕ → Sector → Prop} {m : Blk α} {f : α → Blk β} (hm : Touches R m)
    (hf : ∀ d a d', m d = (.ok a, d') → Touches R (f a)) : Touches R (m >>= f) := by
  intro d
  have hd := hm d
  rw [bind_apply]
  match hmd : m d with
  | (.ok a, d') => rw [hmd] at hd; exact hd.trans (hf d a d' hmd d')
  | (.err e, d') => rw [hmd] at hd; exact hd
  | (.halted h, d') => rw [hmd] at hd; exact hd

theorem Touches.attempt {R : ℕ → Sector → Prop} {m : Blk α} (hm : Touches R m) :
    Touches R (Blk.attempt m) := by
  intro d
  have hd := hm d
  unfold Blk.attempt
  match hmd : m d with
  | (.ok a, d') => rw [hmd] at hd; exact hd
  | (.err e, d') => rw [hmd] at hd; exact hd
  | (.halted h, d') => rw [hmd] at hd; exact hd

/-- A sum that does not fit ends the computation; after it the sum is exact. -/
theorem Touches.addU64_bind {R : ℕ → Sector → Prop} {a b : UInt64} {f : UInt64 → Blk α}
    (hf : ∀ c : UInt64, c.toNat = a.toNat + b.toNat → Touches R (f c)) :
    Touches R (addU64 a b >>= f) := by
  intro d
  rcases addU64_cases a b d with ⟨c, hc, hsum⟩ | ⟨hh, -⟩
  · rw [bind_of_ok hc]
    exact hf c hsum d
  · rw [bind_of_halted hh]
    exact .refl d

theorem Touches.forRange {R : ℕ → Sector → Prop} {n : ℕ} {body : ℕ → Blk Unit}
    (h : ∀ k < n, Touches R (body k)) : Touches R (Blk.forRange n body) := by
  induction n with
  | zero => exact .pure _
  | succ n ih =>
    exact .bind (ih fun k hk => h k (Nat.lt_succ_of_lt hk)) fun _ => h n n.lt_succ_self

theorem Touches.mono {R S : ℕ → Sector → Prop} {m : Blk α} (hm : Touches R m)
    (h : ∀ x v, R x v → S x v) : Touches S m :=
  fun d => ⟨(hm d).capacity, fun x => ((hm d).disk x).imp_right (h _ _), (hm d).writes,
    fun p hp => ((hm d).trace p hp).imp_right (h _ _), (hm d).grows⟩

theorem touches_writeSector {R : ℕ → Sector → Prop} {sector : ℕ} {data : Sector}
    (h : R sector data) : Touches R (writeSector sector data) := by
  intro d
  have hstore : ∀ e : Device, Frame R e (e.store sector data) := by
    refine fun e => ⟨rfl, fun x => ?_, List.suffix_refl _, fun p hp => ?_, List.prefix_append _ _⟩
    · by_cases hx : x = sector
      · subst hx
        exact .inr (by simpa [Device.store] using h)
      · exact .inl (e.store_disk_of_ne data hx)
    · rcases List.mem_append.mp hp with hp | hp
      · exact .inl hp
      · rw [List.mem_singleton.mp hp]
        exact .inr h
  have htail : Frame R d { d with writes := d.writes.tail } :=
    ⟨rfl, fun _ => .inl rfl, List.tail_suffix _, fun _ => .inl, List.prefix_refl _⟩
  rcases writeSector_cases sector data d with ⟨hw, -⟩ | ⟨e, -, hw | ⟨hw, -⟩⟩ <;> rw [hw]
  · exact htail.trans (hstore _)
  · exact htail
  · exact htail.trans (hstore _)

/-- What follows runs on the device that the first part left. -/
theorem Frame.bind {R : ℕ → Sector → Prop} {m : Blk α} {f : α → Blk β} {d : Device}
    (hm : Frame R d (m d).2) (hf : ∀ a d', m d = (.ok a, d') → Frame R d' (f a d').2) :
    Frame R d ((m >>= f) d).2 := by
  rw [bind_apply]
  match hmd : m d with
  | (.ok a, d') => rw [hmd] at hm; exact hm.trans (hf a d' hmd)
  | (.err e, d') => rw [hmd] at hm; exact hm
  | (.halted h, d') => rw [hmd] at hm; exact hm

/-- What was on the device before is still in its trace. -/
theorem Frame.mem_trace {R : ℕ → Sector → Prop} {d d' : Device} (h : Frame R d d')
    {p : ℕ × Sector} (hp : p ∈ d.trace) : p ∈ d'.trace :=
  h.grows.subset hp

/-! ## Computations that only read -/

/-- `m` uses up fates of reads, and does nothing else to the device. -/
def Quiet (m : Blk α) : Prop := ∀ d, ∃ reads, (m d).2 = { d with reads := reads }

theorem Quiet.pure (a : α) : Quiet (Pure.pure a : Blk α) := fun d => ⟨d.reads, rfl⟩

theorem Quiet.fail (msg : String) : Quiet (Blk.fail msg : Blk α) := fun d => ⟨d.reads, rfl⟩

theorem Quiet.halt (why : Halt) : Quiet (Blk.halt why : Blk α) := fun d => ⟨d.reads, rfl⟩

theorem Quiet.bind {m : Blk α} {f : α → Blk β} (hm : Quiet m) (hf : ∀ a, Quiet (f a)) :
    Quiet (m >>= f) := by
  intro d
  obtain ⟨reads, hd⟩ := hm d
  rw [bind_apply]
  match hmd : m d with
  | (.ok a, d') =>
    rw [hmd] at hd
    obtain rfl : d' = _ := hd
    obtain ⟨reads', hd'⟩ := hf a { d with reads := reads }
    exact ⟨reads', hd'⟩
  | (.err e, d') => rw [hmd] at hd; exact ⟨reads, hd⟩
  | (.halted h, d') => rw [hmd] at hd; exact ⟨reads, hd⟩

theorem Quiet.attempt {m : Blk α} (hm : Quiet m) : Quiet (Blk.attempt m) := by
  intro d
  obtain ⟨reads, hd⟩ := hm d
  unfold Blk.attempt
  match hmd : m d with
  | (.ok a, d') => rw [hmd] at hd; exact ⟨reads, hd⟩
  | (.err e, d') => rw [hmd] at hd; exact ⟨reads, hd⟩
  | (.halted h, d') => rw [hmd] at hd; exact ⟨reads, hd⟩

theorem quiet_readSector (sector : ℕ) : Quiet (readSector sector) := by
  intro d
  rcases readSector_cases sector d with ⟨hr, -⟩ | ⟨hr, -⟩ <;> rw [hr] <;> exact ⟨_, rfl⟩

theorem quiet_addU64 (a b : UInt64) : Quiet (addU64 a b) := by
  unfold addU64
  split_ifs
  · exact .pure _
  · exact .halt _

theorem quiet_subU64 (a b : UInt64) : Quiet (subU64 a b) := by
  unfold subU64
  split_ifs
  · exact .pure _
  · exact .halt _

theorem quiet_mulU64 (a b : UInt64) : Quiet (mulU64 a b) := by
  unfold mulU64
  split_ifs
  · exact .pure _
  · exact .halt _

theorem Quiet.touches {R : ℕ → Sector → Prop} {m : Blk α} (hm : Quiet m) : Touches R m := by
  intro d
  obtain ⟨reads, hd⟩ := hm d
  rw [hd]
  exact ⟨rfl, fun _ => .inl rfl, List.suffix_refl _, fun _ => .inl, List.prefix_refl _⟩

/-! ## Running again without a fault -/

/-- `d'` has the disk of `d` and nothing goes wrong on it any more. -/
structure Healed (d d' : Device) : Prop where
  capacity : d'.capacity = d.capacity
  disk : d'.disk = d.disk
  writes : d'.writes = []

/-- Where `m` ended well, `m'` ends well on the same disk without faults, with
the same value and the same disk after it. -/
def Replays (m m' : Blk α) : Prop :=
  ∀ d e d' a, Healed d e → m d = (.ok a, d') → ∃ e', m' e = (.ok a, e') ∧ Healed d' e'

theorem Replays.pure (a : α) : Replays (Pure.pure a : Blk α) (Pure.pure a) := by
  intro d e d' a' he h
  cases h
  exact ⟨e, rfl, he⟩

theorem Replays.fail (msg : String) (m : Blk α) : Replays (Blk.fail msg) m := by
  intro d e d' a' _ h
  cases h

theorem Replays.halt (why : Halt) (m : Blk α) : Replays (Blk.halt why) m := by
  intro d e d' a' _ h
  cases h

theorem Replays.bind {m m' : Blk α} {f f' : α → Blk β} (hm : Replays m m')
    (hf : ∀ a, Replays (f a) (f' a)) : Replays (m >>= f) (m' >>= f') := by
  intro d e d'' b he h
  obtain ⟨a, d', hmd, hfd⟩ := bind_eq_ok h
  obtain ⟨e', hme, he'⟩ := hm _ _ _ _ he hmd
  obtain ⟨e'', hfe, he''⟩ := hf a _ _ _ _ he' hfd
  exact ⟨e'', (bind_of_ok hme).trans hfe, he''⟩

theorem replays_addU64 (a b : UInt64) : Replays (addU64 a b) (addU64 a b) := by
  unfold addU64
  split_ifs
  · exact .pure _
  · exact .halt _ _

theorem replays_writeSector (sector : ℕ) (data : Sector) :
    Replays (writeSector sector data) (writeSector sector data) := by
  intro d e d' a he h
  rcases writeSector_cases sector data d with ⟨hw, -, hcap⟩ | ⟨x, hx, hw⟩
  · rw [hw] at h
    cases h
    refine ⟨_, writeSector_of_healthy data he.writes (he.capacity ▸ hcap), he.capacity, ?_,
      he.writes⟩
    simp [Device.store, he.disk]
  · rcases hx with rfl | rfl <;> rcases hw with hw | ⟨hw, -⟩ <;> rw [hw] at h <;> cases h

theorem Replays.forRange {n : ℕ} {body body' : ℕ → Blk Unit}
    (h : ∀ k < n, Replays (body k) (body' k)) :
    Replays (Blk.forRange n body) (Blk.forRange n body') := by
  induction n with
  | zero => exact .pure _
  | succ n ih =>
    exact .bind (ih fun k hk => h k (Nat.lt_succ_of_lt hk)) fun _ => h n n.lt_succ_self

end Blk

end JungeyOs
