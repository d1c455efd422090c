import JungeyOs.BlkTriple
import JungeyOs.Boot.LogStage
import JungeyOs.Ota.PowerCuts
import Mathlib.Data.List.Induction

/-!
# The update service on a disk whose reads may fail

`stage7c_demo` where some reads fail. A control block that it reads it only takes further,
and it writes to no slot that the block marks `Successful` (`Follows`). Where it cannot read
the block, it takes the device for one that has never been updated, and starts over.

Results:
* `robust_bootFrom`, `robust_finish`: what the service does with the control block it read.
* `stage7c_follows`: with a control block read, the service takes it further.
* `stage7c_begins`: with none on the disk, it makes a first one.
* `stage7c_restarts`: so it does where there is one that it could not read.
-/

namespace JungeyOs.Boot

open Bytes Jlfs Blk Ota

/-! ## Control blocks that follow each other -/

/-- At most one slot is marked `Successful`. -/
def Single (c : Control) : Prop :=
  ∀ slot, c.state slot = .successful → c.state (1 - slot) ≠ .successful

theorem single_of_ne {c : Control} (slot : Fin 2) (h : c.state slot ≠ .successful) : Single c := by
  intro slot' hs
  have hslot : slot = slot' ∨ slot = 1 - slot' := by omega
  rcases hslot with rfl | rfl
  · exact absurd hs h
  · exact h

/-- `mark_successful` leaves one slot that is marked so. -/
theorem single_confirmed (c : Control) : Single c.confirmed := by
  apply single_of_ne c.other
  unfold Control.confirmed
  dsimp only
  split_ifs with ho
  · dsimp only [Control.other]
    rw [Function.update_self]
    decide
  · exact ho

/-- A sector of a slot. -/
def SlotSector (f : Fs) (slot : Fin 2) (x : ℕ) : Prop :=
  slotBase f slot ≤ x ∧ x < slotBase f slot + 64

/-- A slot stays marked `Successful`, or the other one is marked instead. -/
def Hands (c c' : Control) : Prop :=
  ∀ slot, c.state slot = .successful → c'.state slot = .successful ∨ c'.state (1 - slot) = .successful

theorem hands_of_state {c c' : Control} (h : c'.state = c.state) : Hands c c' :=
  fun slot hs => .inl ((congrFun h slot).trans hs)

/-- A slot that is not marked `Successful` may get any mark. -/
theorem hands_update {c c' : Control} {s : SlotState} (slot : Fin 2) (hne : c.state slot ≠ .successful)
    (h : c'.state = Function.update c.state slot s) : Hands c c' := by
  intro slot' hs
  have hslot : slot' ≠ slot := fun heq => hne (heq ▸ hs)
  rw [h, Function.update_of_ne hslot]
  exact .inl hs

theorem hands_confirmed (c : Control) : Hands c c.confirmed := by
  have hactive : c.confirmed.state c.active = .successful := by
    unfold Control.confirmed
    dsimp only
    split_ifs
    · have hne : c.active ≠ (1 - c.active : Fin 2) := by omega
      dsimp only [Control.other]
      rw [Function.update_of_ne hne, Function.update_self]
    · exact Function.update_self _ _ _
  intro slot _
  have hslot : c.active = slot ∨ c.active = 1 - slot := by omega
  rcases hslot with heq | heq
  · exact .inl (heq ▸ hactive)
  · exact .inr (heq ▸ hactive)

/-- Sectors that land, oldest first, take the control block from `c` to `c'`: a new block
has a larger sequence number and keeps a slot marked `Successful`, and a slot that the
current one marks so stays as it is. -/
inductive Follows (f : Fs) (c : Control) : List (ℕ × Sector) → Control → Prop
  | nil : Follows f c [] c
  | image {tr c' x v} : Follows f c tr c' → x ≠ f.otaStart.toNat →
      (∀ slot, c'.state slot = .successful → ¬SlotSector f slot x) →
      Follows f c (tr ++ [(x, v)]) c'
  | control {tr c' c'' v} : Follows f c tr c' → Control.decode v = some c'' →
      c'.seq.toNat < c''.seq.toNat → Hands c' c'' →
      Follows f c (tr ++ [(f.otaStart.toNat, v)]) c''

section Follows

variable {f : Fs} {c c' : Control} {tr : List (ℕ × Sector)}

theorem Follows.seq_le (h : Follows f c tr c') : c.seq.toNat ≤ c'.seq.toNat := by
  induction h with
  | nil => exact le_rfl
  | image _ _ _ ih => exact ih
  | control _ _ hlt _ ih => omega

/-- Every control block that was written is newer than the first one. -/
theorem Follows.newer (h : Follows f c tr c') {v : Sector} (hv : (f.otaStart.toNat, v) ∈ tr) :
    ∃ c'', Control.decode v = some c'' ∧ c.seq.toNat < c''.seq.toNat := by
  induction h with
  | nil => exact absurd hv List.not_mem_nil
  | image _ hx _ ih =>
    rcases List.mem_append.mp hv with hv | hv
    · exact ih hv
    · obtain ⟨hx', -⟩ := Prod.mk.inj (List.mem_singleton.mp hv)
      exact absurd hx'.symm hx
  | control hprev hdec hlt _ ih =>
    rcases List.mem_append.mp hv with hv | hv
    · exact ih hv
    · obtain ⟨-, rfl⟩ := Prod.mk.inj (List.mem_singleton.mp hv)
      have := hprev.seq_le
      exact ⟨_, hdec, by omega⟩

/-- What lands outside the update region leaves the control block as it is. -/
theorem follows_outside (h : ∀ p ∈ tr, p.1 < f.otaStart.toNat ∨ f.otaStart.toNat + 129 ≤ p.1) :
    Follows f c tr c := by
  induction tr using List.reverseRecOn with
  | nil => exact .nil
  | append_singleton tr p ih =>
    have hp := h p (List.mem_append_right _ (List.mem_singleton_self p))
    refine .image (ih fun q hq => h q (List.mem_append_left _ hq)) (by omega) fun slot _ hx => ?_
    obtain ⟨h1, h2⟩ := hx
    unfold slotBase at h1 h2
    omega

end Follows

/-! ## What the service keeps -/

/-- Since `disk₀` only the update region changed, and `c` is the control block on the disk:
the sectors that landed after `tr₀` took it there from `c₀`. -/
structure At (f : Fs) (disk₀ : Disk) (tr₀ : List (ℕ × Sector)) (c₀ c : Control) (disk : Disk)
    (tr : List (ℕ × Sector)) : Prop where
  decode : Control.decode (disk f.otaStart.toNat) = some c
  single : Single c
  seq : 1 ≤ c.seq.toNat
  outside : ∀ x, x < f.otaStart.toNat ∨ f.otaStart.toNat + 129 ≤ x → disk x = disk₀ x
  inside : ∀ p ∈ tr, f.otaStart.toNat ≤ p.1 ∧ p.1 < f.otaStart.toNat + 129
  follows : ∃ tr', tr = tr₀ ++ tr' ∧ Follows f c₀ tr' c

section Service

variable {f : Fs} {n : ℕ} {disk₀ disk : Disk} {tr₀ tr : List (ℕ × Sector)} {c₀ c : Control}
  {slot : Fin 2} {E : DiskPred}

/-- A sector of a slot that is not marked `Successful` lands. -/
theorem At.image (h : At f disk₀ tr₀ c₀ c disk tr) (hslot : c.state slot ≠ .successful) {s : ℕ}
    (hs : s < 8) (v : Sector) :
    At f disk₀ tr₀ c₀ c (Function.update disk (slotBase f slot + s) v)
      (tr ++ [(slotBase f slot + s, v)]) := by
  have hbase : slotBase f slot = f.otaStart.toNat + 1 + slot.val * 64 := rfl
  have hval : slot.val < 2 := slot.isLt
  obtain ⟨tr', rfl, hfollows⟩ := h.follows
  refine ⟨?_, h.single, h.seq, fun x hx => ?_, fun p hp => ?_, tr' ++ [(slotBase f slot + s, v)],
    (List.append_assoc _ _ _), .image hfollows (by omega) fun slot' hslot' hx => ?_⟩
  · rw [Function.update_of_ne (by omega)]
    exact h.decode
  · rw [Function.update_of_ne (by omega)]
    exact h.outside x hx
  · rcases List.mem_append.mp hp with hp | hp
    · exact h.inside p hp
    · rw [List.mem_singleton.mp hp]
      constructor <;> dsimp only <;> omega
  · -- the other slot is the one that is marked
    have hne : slot'.val ≠ slot.val := fun heq => hslot (Fin.ext heq ▸ hslot')
    have hval' : slot'.val < 2 := slot'.isLt
    obtain ⟨h1, h2⟩ := hx
    unfold slotBase at h1 h2
    omega

/-- A newer control block lands. -/
theorem At.control (h : At f disk₀ tr₀ c₀ c disk tr) {c' : Control} (hsingle : Single c')
    (hseq : c.seq.toNat < c'.seq.toNat) (hhands : Hands c c') :
    At f disk₀ tr₀ c₀ c' (Function.update disk f.otaStart.toNat c'.encode)
      (tr ++ [(f.otaStart.toNat, c'.encode)]) := by
  obtain ⟨tr', rfl, hfollows⟩ := h.follows
  refine ⟨?_, hsingle, by omega, fun x hx => ?_, fun p hp => ?_,
    tr' ++ [(f.otaStart.toNat, c'.encode)], (List.append_assoc _ _ _),
    .control hfollows (Control.decode_encode c') hseq hhands⟩
  · rw [Function.update_self, Control.decode_encode]
  · rw [Function.update_of_ne (by omega)]
    exact h.outside x hx
  · rcases List.mem_append.mp hp with hp | hp
    · exact h.inside p hp
    · rw [List.mem_singleton.mp hp]
      constructor <;> dsimp only <;> omega

/-- What every sector of an image keeps, the write of the image keeps. -/
theorem robust_writeImage {I : DiskPred} (hfits : f.otaStart.toNat + 129 ≤ n)
    (hI : ∀ s < 8, ∀ v disk tr, I disk tr →
      I (Function.update disk (slotBase f slot + s) v) (tr ++ [(slotBase f slot + s, v)]))
    (hE : ∀ disk tr, I disk tr → E disk tr) (img : ImageBytes) :
    Robust n I (writeImage f slot img) (fun _ => I) E := by
  have hone : (1 : UInt64).toNat = 1 := rfl
  have hslots := toNat_slotOffset slot
  have hval : slot.val < 2 := slot.isLt
  unfold writeImage slotSector
  rw [bind_assoc]
  refine .bind (robust_addU64 (Q := fun first disk tr =>
    first.toNat = f.otaStart.toNat + 1 ∧ I disk tr) (fun c disk tr hsum h => ⟨?_, h⟩) hE) fun first => ?_
  · rw [hsum, hone]
  refine .given (fun _ _ h => h.1) fun hfirst => ?_
  refine .bind (robust_addU64 (Q := fun base disk tr =>
    base.toNat = slotBase f slot ∧ I disk tr) (fun c disk tr hsum h => ⟨?_, h.2⟩)
    fun disk tr h => hE disk tr h.2) fun base => ?_
  · rw [hsum, hslots, hfirst]
    rfl
  refine .given (fun _ _ h => h.1) fun hbase => ?_
  refine (Robust.forRange (I := fun _ => I) fun s hs => ?_).conseq (fun _ _ h => h.2) fun _ _ _ h => h
  have hs8 : s < 8 := hs
  have hmod : (UInt64.ofNat s).toNat = s := by
    rw [UInt64.toNat_ofNat', Nat.mod_eq_of_lt (by omega)]
  refine .bind (robust_addU64 (Q := fun pos disk tr =>
    pos.toNat = slotBase f slot + s ∧ I disk tr) (fun c disk tr hsum h => ⟨?_, h⟩) hE) fun pos => ?_
  · rw [hsum, hbase, hmod]
  refine .given (fun _ _ h => h.1) fun hpos => ?_
  have hlast : slotBase f slot + s < n := by
    unfold slotBase
    omega
  exact robust_writeSector (by omega) fun disk tr h => hpos ▸ hI s hs8 _ disk tr h.2

variable (hfits : f.otaStart.toNat + 129 ≤ n)
  (hE : ∀ c disk tr, At f disk₀ tr₀ c₀ c disk tr → E disk tr)

include hfits hE

/-- A control block is written over the one that it was made from. -/
theorem robust_writeControl {c' : Control} (hseq : c'.seq = c.seq) (hsingle : Single c')
    (hhands : Hands c c') :
    Robust n (At f disk₀ tr₀ c₀ c) (writeControl f c') (fun r disk tr =>
      r.2.state = c'.state ∧ r.2.active = c'.active ∧ At f disk₀ tr₀ c₀ r.2 disk tr) E := by
  have hone : (1 : UInt64).toNat = 1 := rfl
  refine .bind (robust_addU64 (Q := fun seq disk tr =>
    seq.toNat = c.seq.toNat + 1 ∧ At f disk₀ tr₀ c₀ c disk tr)
    (fun seq disk tr hsum h => ⟨?_, h⟩) (hE c)) fun seq => ?_
  · rw [hsum, hone, hseq]
  refine .given (fun _ _ h => h.1) fun hnext => ?_
  refine .bind (Robust.attempt (F := fun _ _ => False)
    (R := fun _ => At f disk₀ tr₀ c₀ { c' with seq := seq })
    (robust_writeSector (Q := fun _ => At f disk₀ tr₀ c₀ { c' with seq := seq }) (by omega)
      fun disk tr h => ?_) (fun _ _ _ h => h) (fun _ _ _ h => h.elim) fun _ _ h => h.elim) fun r => ?_
  · exact h.2.control hsingle (by dsimp only; omega) hhands
  · exact .pure fun disk tr h => ⟨rfl, rfl, h⟩

/-- An image goes into a slot that is not marked `Successful`, and the control block names
it. -/
theorem robust_stage (slot : Fin 2) (hslot : c.state slot ≠ .successful) (version : UInt64)
    (healthy : Bool) : Robust n (At f disk₀ tr₀ c₀ c) (stage f c slot version healthy)
      (fun r => At f disk₀ tr₀ c₀ r.2) E := by
  have hstaged : Single (c.staged slot version healthy) :=
    single_of_ne slot (by simp [Control.staged])
  refine .bind (Robust.attempt (R := fun _ => At f disk₀ tr₀ c₀ c)
    (robust_writeImage hfits (fun s hs v disk tr h => h.image hslot hs v) (fun _ _ h => h) _)
    (fun _ _ _ h => h) (fun _ _ _ h => h) (hE c)) fun r => ?_
  cases r with
  | error e => exact .pure fun disk tr h => h
  | ok u =>
    exact (robust_writeControl hfits hE
      (show (c.staged slot version healthy).seq = c.seq from rfl) hstaged
      (hands_update slot hslot rfl)).conseq (fun _ _ h => h) fun _ _ _ h => h.2.2

/-- The update that may be staged at the end of a boot goes into the slot that is not
running. -/
theorem robust_offer (hsingle : Single c) (update : Option (UInt64 × Bool)) :
    Robust n (At f disk₀ tr₀ c₀ c) (offer f c update) (fun _ => E) E := by
  unfold offer
  split
  · exact .pure (hE c)
  · split_ifs with hactive
    · exact .bind (robust_stage hfits hE c.other (hsingle _ hactive) _ _) fun r =>
        .pure (hE r.2)
    · exact .pure (hE c)

/-- `boot` from the measurement of the active slot on. -/
theorem robust_bootActive (hsingle : Single c) :
    Robust n (At f disk₀ tr₀ c₀ c) (bootActive f c) (fun r disk tr =>
      r.2 ≠ .fresh ∧ At f disk₀ tr₀ c₀ r.1 disk tr) E := by
  refine .bind (Robust.quiet (Q := fun _ => At f disk₀ tr₀ c₀ c) (quiet_load f _).attempt
    (fun _ _ _ h => h) (hE c)) fun r => ?_
  cases r with
  | error e => exact .pure fun disk tr h => ⟨by simp, h⟩
  | ok img =>
    dsimp only
    split_ifs
    · exact .pure fun disk tr h => ⟨by simp, h⟩
    · exact .bind (robust_writeControl hfits hE rfl hsingle (hands_of_state rfl)) fun r =>
        .pure fun disk tr h => ⟨by simp, h.2.2⟩
    · exact .pure fun disk tr h => ⟨by simp, h⟩

end Service

/-! ## The service with a control block -/

/-- `boot` with the control block that it read (`ota.rs`, lines 263–311). -/
def bootFrom (f : Fs) (c : Control) : Blk (Control × Outcome) :=
  if c.state c.active = .unverified ∧ c.tries = 0 then
    let source := c.active
    let target := c.other
    if c.state target = .successful then do
      let c := { c with
        state := Function.update c.state source .failed
        active := target
        rollbacks := saturatingSucc c.rollbacks }
      let (_, c) ← writeControl f c
      pure (c, .rolledBack source target (c.version target))
    else do
      let (_, c) ← writeControl f { c with tries := 1 }
      bootActive f c
  else bootActive f c

theorem boot_eq (f : Fs) : boot f = readControl f >>= fun
    | none => pure (Control.blank, .fresh)
    | some c => bootFrom f c := rfl

/-- `stage7c_demo` after `boot`. -/
def finish (f : Fs) (confirm : Bool) (update : Option (UInt64 × Bool)) :
    Control × Outcome → Blk Unit
  | (_, .fresh) => do
    match ← attempt (initialise f) with
    | .error _ => pure ()
    | .ok c => offer f c update
  | (c, .trying _ _ _ _) =>
    if confirm then do
      let (_, c) ← markSuccessful f c
      offer f c update
    else offer f c update
  | (c, _) => offer f c update

theorem stage7c_eq (confirm : Bool) (update : Option (UInt64 × Bool)) :
    stage7c confirm update = attempt mount >>= fun
      | .error _ => pure ()
      | .ok f => boot f >>= finish f confirm update := by
  unfold stage7c
  congr 1
  funext r
  cases r with
  | error e => rfl
  | ok f =>
    dsimp only
    congr 1
    funext p
    obtain ⟨c, outcome⟩ := p
    cases outcome <;> rfl

section Service

variable {f : Fs} {n : ℕ} {disk₀ : Disk} {tr₀ : List (ℕ × Sector)} {c₀ c : Control} {E : DiskPred}
  (hfits : f.otaStart.toNat + 129 ≤ n)
  (hE : ∀ c disk tr, At f disk₀ tr₀ c₀ c disk tr → E disk tr)

include hfits hE

theorem robust_bootFrom (hsingle : Single c) :
    Robust n (At f disk₀ tr₀ c₀ c) (bootFrom f c) (fun r disk tr =>
      r.2 ≠ .fresh ∧ At f disk₀ tr₀ c₀ r.1 disk tr) E := by
  unfold bootFrom
  by_cases hspent : c.state c.active = .unverified ∧ c.tries = 0
  · rw [if_pos hspent]
    dsimp only
    by_cases htarget : c.state c.other = .successful
    · rw [if_pos htarget]
      let rolled : Control := { c with
        state := Function.update c.state c.active .failed
        active := c.other
        rollbacks := saturatingSucc c.rollbacks }
      have hrolled : Single rolled := single_of_ne c.active (by simp [rolled])
      have hhands : Hands c rolled := hands_update c.active (by simp [hspent.1]) rfl
      exact .bind (robust_writeControl hfits hE (show rolled.seq = c.seq from rfl) hrolled hhands)
        fun r => .pure fun disk tr h => ⟨by simp, h.2.2⟩
    · rw [if_neg htarget]
      let retried : Control := { c with tries := 1 }
      have hhands : Hands c retried := hands_of_state rfl
      refine .bind (robust_writeControl hfits hE (show retried.seq = c.seq from rfl) hsingle hhands)
        fun r => ?_
      refine .given (p := Single r.2) (fun _ _ h => h.2.2.single) fun hr => ?_
      exact (robust_bootActive hfits hE hr).conseq (fun _ _ h => h.2.2) fun _ _ _ h => h
  · rw [if_neg hspent]
    exact robust_bootActive hfits hE hsingle

theorem robust_finish (confirm : Bool) (update : Option (UInt64 × Bool)) (outcome : Outcome)
    (hne : outcome ≠ .fresh) (hsingle : Single c) :
    Robust n (At f disk₀ tr₀ c₀ c) (finish f confirm update (c, outcome)) (fun _ => E) E := by
  cases outcome with
  | fresh => exact absurd rfl hne
  | trying slot version triesLeft healthy =>
    unfold finish
    dsimp only
    split_ifs
    · have hseq : c.confirmed.seq = c.seq := by
        unfold Control.confirmed
        dsimp only
        split_ifs <;> rfl
      refine .bind (robust_writeControl hfits hE hseq (single_confirmed c) (hands_confirmed c))
        fun r => ?_
      refine .given (p := Single r.2) (fun _ _ h => h.2.2.single) fun hr => ?_
      exact (robust_offer hfits hE hr update).conseq (fun _ _ h => h.2.2) fun _ _ _ h => h
    · exact robust_offer hfits hE hsingle update
  | rolledBack source target version => exact robust_offer hfits hE hsingle update
  | running slot version => exact robust_offer hfits hE hsingle update
  | corrupt slot => exact robust_offer hfits hE hsingle update

end Service

/-! ## The service without a control block -/

/-- Only the update region changed, and what control block there is can be gone on with. -/
structure Served (f : Fs) (disk₀ disk : Disk) (tr : List (ℕ × Sector)) : Prop where
  control : ∀ c, Control.decode (disk f.otaStart.toNat) = some c → 1 ≤ c.seq.toNat ∧ Single c
  outside : ∀ x, x < f.otaStart.toNat ∨ f.otaStart.toNat + 129 ≤ x → disk x = disk₀ x
  inside : ∀ p ∈ tr, f.otaStart.toNat ≤ p.1 ∧ p.1 < f.otaStart.toNat + 129

theorem At.served {f : Fs} {disk₀ disk : Disk} {tr₀ tr : List (ℕ × Sector)} {c₀ c : Control}
    (h : At f disk₀ tr₀ c₀ c disk tr) : Served f disk₀ disk tr := by
  refine ⟨fun c' hc' => ?_, h.outside, h.inside⟩
  obtain rfl : c = c' := Option.some.inj (h.decode.symm.trans hc')
  exact ⟨h.seq, h.single⟩

/-- The same, and there is none. -/
structure Unserved (f : Fs) (disk₀ disk : Disk) (tr : List (ℕ × Sector)) : Prop where
  decode : Control.decode (disk f.otaStart.toNat) = none
  outside : ∀ x, x < f.otaStart.toNat ∨ f.otaStart.toNat + 129 ≤ x → disk x = disk₀ x
  inside : ∀ p ∈ tr, f.otaStart.toNat ≤ p.1 ∧ p.1 < f.otaStart.toNat + 129

section First

variable {f : Fs} {n : ℕ} {disk₀ disk : Disk} {tr : List (ℕ × Sector)}

theorem Unserved.served (h : Unserved f disk₀ disk tr) : Served f disk₀ disk tr := by
  refine ⟨fun c hc => ?_, h.outside, h.inside⟩
  rw [h.decode] at hc
  cases hc

/-- A sector of a slot lands. -/
theorem Unserved.image (h : Unserved f disk₀ disk tr) (slot : Fin 2) {s : ℕ} (hs : s < 8)
    (v : Sector) : Unserved f disk₀ (Function.update disk (slotBase f slot + s) v)
      (tr ++ [(slotBase f slot + s, v)]) := by
  have hbase : slotBase f slot = f.otaStart.toNat + 1 + slot.val * 64 := rfl
  have hval : slot.val < 2 := slot.isLt
  refine ⟨?_, fun x hx => ?_, fun p hp => ?_⟩
  · rw [Function.update_of_ne (by omega)]
    exact h.decode
  · rw [Function.update_of_ne (by omega)]
    exact h.outside x hx
  · rcases List.mem_append.mp hp with hp | hp
    · exact h.inside p hp
    · rw [List.mem_singleton.mp hp]
      constructor <;> dsimp only <;> omega

/-- The first control block lands. -/
theorem Unserved.first (h : Unserved f disk₀ disk tr) {c : Control} (hseq : 1 ≤ c.seq.toNat)
    (hsingle : Single c) : At f disk₀ (tr ++ [(f.otaStart.toNat, c.encode)]) c c
      (Function.update disk f.otaStart.toNat c.encode) (tr ++ [(f.otaStart.toNat, c.encode)]) := by
  refine ⟨?_, hsingle, hseq, fun x hx => ?_, fun p hp => ?_, [], (List.append_nil _).symm, .nil⟩
  · rw [Function.update_self, Control.decode_encode]
  · rw [Function.update_of_ne (by omega)]
    exact h.outside x hx
  · rcases List.mem_append.mp hp with hp | hp
    · exact h.inside p hp
    · rw [List.mem_singleton.mp hp]
      constructor <;> dsimp only <;> omega

theorem single_initial (seq : UInt64) : Single { Control.initial with seq := seq } :=
  single_of_ne 1 (by simp [Control.initial, Control.blank])

variable (hfits : f.otaStart.toNat + 129 ≤ n)

include hfits

theorem robust_initialise :
    Robust n (Unserved f disk₀) (initialise f)
      (fun c disk tr => ∃ tr₀, At f disk₀ tr₀ c c disk tr) (Served f disk₀) := by
  have hserved : ∀ disk tr, Unserved f disk₀ disk tr → Served f disk₀ disk tr := fun _ _ h => h.served
  refine .bind (robust_writeImage hfits (fun s hs v disk tr h => h.image 0 hs v) hserved _) fun _ => ?_
  unfold writeControl
  rw [bind_assoc]
  refine .bind (robust_addU64 (Q := fun seq disk tr => 1 ≤ seq.toNat ∧ Unserved f disk₀ disk tr)
    (fun seq disk tr hsum h => ⟨?_, h⟩) hserved) fun seq => ?_
  · have hone : (1 : UInt64).toNat = 1 := rfl
    omega
  let c : Control := { Control.initial with seq := seq }
  rw [bind_assoc]
  refine .bind (Robust.attempt (F := fun _ _ => False)
    (R := fun _ disk tr => ∃ tr₀, At f disk₀ tr₀ c c disk tr)
    (robust_writeSector (Q := fun _ disk tr => ∃ tr₀, At f disk₀ tr₀ c c disk tr) (by omega)
      fun disk tr h => ⟨_, h.2.first h.1 (single_initial seq)⟩)
    (fun _ _ _ h => h) (fun _ _ _ h => h.elim) fun _ _ h => h.elim) fun r => ?_
  cases r with
  | error e => exact .fail fun disk tr ⟨tr₀, h⟩ => h.served
  | ok u => exact .pure fun disk tr h => h

theorem robust_fresh (confirm : Bool) (update : Option (UInt64 × Bool)) (c : Control) :
    Robust n (Unserved f disk₀) (finish f confirm update (c, .fresh)) (fun _ => Served f disk₀)
      (Served f disk₀) := by
  refine .bind (Robust.attempt (R := fun r disk tr => match r with
      | .error _ => Served f disk₀ disk tr
      | .ok c => ∃ tr₀, At f disk₀ tr₀ c c disk tr)
    (robust_initialise hfits) (fun _ _ _ h => h) (fun _ _ _ h => h) fun _ _ h => h) fun r => ?_
  cases r with
  | error e => exact .pure fun disk tr h => h
  | ok c =>
    refine .exists fun tr₀ => .given (fun _ _ h => h.single) fun hsingle => ?_
    exact robust_offer hfits (fun c' disk tr h => At.served h) hsingle update

end First

/-! ## The stage -/

section Stage

variable {d : Device} {slot : Fin 2} {cp : Checkpoint} {c : Control} {f : Fs} (confirm : Bool)
  (update : Option (UInt64 × Bool))

/-- What the service needs of the disk. -/
structure Ground (f : Fs) (slot : Fin 2) (cp : Checkpoint) (d : Device) : Prop where
  adopt : f = adopt (d.disk SB_SECTOR) slot cp
  capacity : 2 < d.capacity
  superblock : SuperblockOk (d.disk SB_SECTOR)
  root : Root d.disk slot cp
  fits : f.otaStart.toNat + 129 ≤ d.capacity
  writes : d.writes = []
  trace : d.trace = []

theorem headD_drop (reads : List ReadFate) (k : ℕ) :
    (reads.drop k).headD .ok = (reads[k]?).getD .ok := by
  rw [List.headD_eq_head?_getD, List.head?_drop]

/-- A service that could not mount did nothing. -/
theorem stage7c_unmounted (h : Ground f slot cp d) (hm : MountFails d.reads) :
    ∃ reads, stage7c confirm update d = (.ok (), { d with reads := reads }) := by
  obtain ⟨e, reads, hmount⟩ := mount_failed h.capacity h.superblock hm
  rw [stage7c_eq, bind_of_ok (attempt_of_err hmount)]
  exact ⟨reads, rfl⟩

theorem stage7c_mounted (h : Ground f slot cp d) (hm : ¬MountFails d.reads) :
    stage7c confirm update d =
      (boot f >>= finish f confirm update) { d with reads := d.reads.drop 3 } := by
  rw [stage7c_eq, bind_of_ok (attempt_of_ok (mount_reads h.capacity h.superblock h.root hm)),
    ← h.adopt]

theorem Ground.readControl (h : Ground f slot cp d) :
    readControl f { d with reads := d.reads.drop 3 } =
      (.ok (if d.reads[3]? = some .fail then none else Control.decode (d.disk f.otaStart.toNat)),
        { d with reads := (d.reads.drop 3).tail }) := by
  have hfits := h.fits
  have hhead := headD_drop d.reads 3
  unfold Ota.readControl
  by_cases hread : d.reads[3]? = some .fail
  · rw [hread] at hhead
    rw [if_pos hread, bind_of_ok (attempt_of_err (readSector_failed
      (d := { d with reads := d.reads.drop 3 }) hhead))]
    rfl
  · have hok : (d.reads.drop 3).headD .ok = .ok := by
      rw [hhead]
      rcases hr : d.reads[3]? with _ | fate
      · rfl
      · exact (fate_cases fate).resolve_right fun hfate => hread (hfate ▸ hr)
    rw [if_neg hread, bind_of_ok (attempt_of_ok (readSector_reads
      (d := { d with reads := d.reads.drop 3 }) (by dsimp only; omega) hok))]
    rfl

/-- With a control block read, the service takes it further. -/
theorem stage7c_follows (h : Ground f slot cp d) (hm : ¬MountFails d.reads)
    (hread : d.reads[3]? ≠ some .fail) (hc : Control.decode (d.disk f.otaStart.toNat) = some c)
    (hseq : 1 ≤ c.seq.toNat) (hsingle : Single c) :
    ∃ c', At f d.disk [] c c' (stage7c confirm update d).2.disk (stage7c confirm update d).2.trace := by
  have hservice : Robust d.capacity (At f d.disk [] c c) (bootFrom f c >>= finish f confirm update)
      (fun _ disk tr => ∃ c', At f d.disk [] c c' disk tr)
      (fun disk tr => ∃ c', At f d.disk [] c c' disk tr) := by
    have hE : ∀ c' disk tr, At f d.disk [] c c' disk tr → ∃ c', At f d.disk [] c c' disk tr :=
      fun c' _ _ h => ⟨c', h⟩
    refine .bind (robust_bootFrom h.fits hE hsingle) fun r => ?_
    obtain ⟨c', outcome⟩ := r
    refine .given (p := outcome ≠ .fresh ∧ Single c') (fun _ _ h => ⟨h.1, h.2.single⟩) fun hr => ?_
    exact (robust_finish h.fits hE confirm update outcome hr.1 hr.2).conseq (fun _ _ h => h.2)
      fun _ _ _ h => h
  have hstart : At f d.disk [] c c d.disk d.trace := by
    rw [h.trace]
    exact ⟨hc, hsingle, hseq, fun _ _ => rfl, fun _ hp => absurd hp List.not_mem_nil, [], rfl, .nil⟩
  have hread' := h.readControl
  rw [if_neg hread, hc] at hread'
  rw [stage7c_mounted _ _ h hm, boot_eq, bind_assoc, bind_of_ok hread']
  obtain ⟨-, -, hend⟩ := hservice { d with reads := (d.reads.drop 3).tail } rfl h.writes hstart
  dsimp only
  split at hend <;> exact hend

/-- With none on the disk, it makes a first one. -/
theorem stage7c_begins (h : Ground f slot cp d) (hm : ¬MountFails d.reads)
    (hc : Control.decode (d.disk f.otaStart.toNat) = none) :
    Served f d.disk (stage7c confirm update d).2.disk (stage7c confirm update d).2.trace := by
  have hstart : Unserved f d.disk d.disk d.trace := by
    rw [h.trace]
    exact ⟨hc, fun _ _ => rfl, fun _ hp => absurd hp List.not_mem_nil⟩
  have hread := h.readControl
  rw [hc, ite_self] at hread
  rw [stage7c_mounted _ _ h hm, boot_eq, bind_assoc, bind_of_ok hread]
  have hservice : Robust d.capacity (Unserved f d.disk) (finish f confirm update (Control.blank, .fresh))
      (fun _ => Served f d.disk) (Served f d.disk) :=
    robust_fresh h.fits confirm update Control.blank
  obtain ⟨-, -, hend⟩ := hservice { d with reads := (d.reads.drop 3).tail } rfl h.writes hstart
  dsimp only
  rw [pure_bind_apply]
  split at hend <;> exact hend

theorem touches_offer (f : Fs) (c : Control) (update : Option (UInt64 × Bool)) :
    Touches (fun x _ => f.otaStart.toNat ≤ x ∧ x < f.otaStart.toNat + 129) (offer f c update) := by
  unfold offer
  split
  · exact .pure _
  · split_ifs
    · exact .bind (Regions.touches_stage f c _ _ _) fun _ => .pure _
    · exact .pure _

/-- With a control block that it could not read, it makes a first one too. -/
theorem stage7c_restarts (h : Ground f slot cp d) (hlt : d.capacity < 2 ^ 64)
    (hm : ¬MountFails d.reads) (hread : d.reads[3]? = some .fail) :
    ∃ c' : Control, c'.seq.toNat = 1 ∧
      (f.otaStart.toNat, c'.encode) ∈ (stage7c confirm update d).2.trace := by
  have hfits := h.fits
  obtain ⟨c', d', hinit, hseq, -, hmem⟩ := initialise_healthy (f := f)
    (d := { d with reads := (d.reads.drop 3).tail }) h.writes hfits hlt
  have hread' := h.readControl
  rw [if_pos hread] at hread'
  refine ⟨c', hseq, ?_⟩
  rw [stage7c_mounted _ _ h hm, boot_eq, bind_assoc, bind_of_ok hread']
  dsimp only
  rw [pure_bind_apply, finish, bind_of_ok (attempt_of_ok hinit)]
  exact (touches_offer f c' update d').mem_trace hmem

/-- The first control block is on the disk where nothing is staged after it. -/
theorem stage7c_fresh (h : Ground f slot cp d) (hlt : d.capacity < 2 ^ 64)
    (hm : ¬MountFails d.reads) (hc : Control.decode (d.disk f.otaStart.toNat) = none) :
    ∃ c : Control, (stage7c confirm none d).2.disk f.otaStart.toNat = c.encode := by
  obtain ⟨c, d', hinit, -, hdisk, -⟩ := initialise_healthy (f := f)
    (d := { d with reads := (d.reads.drop 3).tail }) h.writes h.fits hlt
  have hread := h.readControl
  rw [hc, ite_self] at hread
  refine ⟨c, ?_⟩
  rw [stage7c_mounted _ _ h hm, boot_eq, bind_assoc, bind_of_ok hread]
  dsimp only
  rw [pure_bind_apply, finish, bind_of_ok (attempt_of_ok hinit)]
  exact hdisk

end Stage

end JungeyOs.Boot
