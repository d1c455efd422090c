import JungeyOs.Blk

/-!
# Reasoning about power cuts and failed reads

Rules of pre- and postconditions for computations on a disk whose sector calls do
not fail, and on which the power may go at any sector write. A triple has, next to
its postcondition, a crash condition: it holds of the disk wherever the machine
may stop.

The second set of rules is for a disk on which writes go well and any read may fail.
Next to its postcondition, such a specification has a condition for every other end.

Results:
* `Triple.bind`, `Triple.forRange`, `Triple.attempt`: the rules for composing.
* `triple_writeSector`, `triple_readSector`: the rules for sector calls.
* `Robust.bind`, `Robust.forRange`, `Robust.attempt`: the rules for composing where
  reads may fail.
* `robust_writeSector`, `Robust.quiet`: those for sector calls.
-/

namespace JungeyOs.Blk

variable {α β : Type}

/-- A condition on the contents of the disk and on the sectors that landed. -/
abbrev DiskPred := Disk → List (ℕ × Sector) → Prop

/-- Sector calls within the capacity do not fail; the power may go. -/
structure Steady (capacity : ℕ) (d : Device) : Prop where
  capacity : d.capacity = capacity
  reads : d.reads = []
  writes : ∀ fate ∈ d.writes, fate = .ok ∨ fate = .cutBefore ∨ fate = .cutAfter

/-- What holds after a computation: it ended well with `Q`, or the machine stopped
with `C`. It did not return `Err`. -/
def Post (capacity : ℕ) (Q : α → DiskPred) (C : DiskPred) : Exit α × Device → Prop
  | (.ok a, d) => Steady capacity d ∧ Q a d.disk d.trace
  | (.err _, _) => False
  | (.halted _, d) => d.capacity = capacity ∧ C d.disk d.trace

/-- Started with `P`, the computation ends with `Q` or stops with `C`. -/
def Triple (capacity : ℕ) (P : DiskPred) (m : Blk α) (Q : α → DiskPred) (C : DiskPred) : Prop :=
  ∀ d, Steady capacity d → P d.disk d.trace → Post capacity Q C (m d)

variable {n : ℕ} {P P' C : DiskPred} {Q : α → DiskPred} {R : β → DiskPred} {m : Blk α}

theorem Triple.pure {a : α} (h : ∀ disk tr, P disk tr → Q a disk tr) :
    Triple n P (Pure.pure a : Blk α) Q C :=
  fun d hs hp => ⟨hs, h d.disk d.trace hp⟩

theorem Triple.bind {f : α → Blk β} (hm : Triple n P m Q C) (hf : ∀ a, Triple n (Q a) (f a) R C) :
    Triple n P (m >>= f) R C := by
  intro d hs hp
  have hd := hm d hs hp
  rw [bind_apply]
  match hmd : m d with
  | (.ok a, d') =>
    rw [hmd] at hd
    exact hf a d' hd.1 hd.2
  | (.err e, d') => rw [hmd] at hd; exact hd
  | (.halted why, d') => rw [hmd] at hd; exact hd

theorem Triple.conseq (hm : Triple n P m Q C) (hp : ∀ disk tr, P' disk tr → P disk tr) :
    Triple n P' m Q C :=
  fun d hs h => hm d hs (hp _ _ h)

/-- A fact that does not depend on the disk is assumed for the rest. -/
theorem Triple.assume {φ : Prop} (h : φ → Triple n P m Q C) :
    Triple n (fun disk tr => φ ∧ P disk tr) m Q C :=
  fun d hs hp => h hp.1 d hs hp.2

/-- A fact that follows from the precondition, whatever the disk, is known to the
rest. -/
theorem Triple.given {p : Prop} (hgiven : ∀ disk tr, P disk tr → p) (h : p → Triple n P m Q C) :
    Triple n P m Q C :=
  fun d hs hp => h (hgiven _ _ hp) d hs hp

theorem Triple.post {Q' : α → DiskPred} (hm : Triple n P m Q C)
    (hq : ∀ a disk tr, Q a disk tr → Q' a disk tr) : Triple n P m Q' C := by
  intro d hs hp
  have hd := hm d hs hp
  match hmd : m d with
  | (.ok a, d') =>
    rw [hmd] at hd
    exact ⟨hd.1, hq a _ _ hd.2⟩
  | (.err e, d') => rw [hmd] at hd; exact hd
  | (.halted why, d') => rw [hmd] at hd; exact hd

theorem Triple.attempt {R : Except String α → DiskPred} (hm : Triple n P m Q C)
    (h : ∀ a disk tr, Q a disk tr → R (.ok a) disk tr) :
    Triple n P (Blk.attempt m) R C := by
  intro d hs hp
  have hd := hm d hs hp
  unfold Blk.attempt
  match hmd : m d with
  | (.ok a, d') =>
    rw [hmd] at hd
    exact ⟨hd.1, h a _ _ hd.2⟩
  | (.err e, d') => rw [hmd] at hd; exact hd.elim
  | (.halted why, d') => rw [hmd] at hd; exact hd

theorem Triple.attempt_pure {R : Except String α → DiskPred} {a : α}
    (h : ∀ disk tr, P disk tr → R (.ok a) disk tr) :
    Triple n P (Blk.attempt (Pure.pure a : Blk α)) R C :=
  fun d hs hp => ⟨hs, h d.disk d.trace hp⟩

theorem Triple.attempt_fail {R : Except String α → DiskPred} {e : String}
    (h : ∀ disk tr, P disk tr → R (.error e) disk tr) :
    Triple n P (Blk.attempt (Blk.fail e : Blk α)) R C :=
  fun d hs hp => ⟨hs, h d.disk d.trace hp⟩

/-- Only the last part of a computation may return `Err`. -/
theorem Triple.attempt_bind {f : α → Blk β} {R : Except String β → DiskPred}
    (hm : Triple n P m Q C) (hf : ∀ a, Triple n (Q a) (Blk.attempt (f a)) R C) :
    Triple n P (Blk.attempt (m >>= f)) R C := by
  intro d hs hp
  have hd := hm d hs hp
  unfold Blk.attempt
  rw [bind_apply]
  match hmd : m d with
  | (.ok a, d') =>
    rw [hmd] at hd
    exact hf a d' hd.1 hd.2
  | (.err e, d') => rw [hmd] at hd; exact hd.elim
  | (.halted why, d') => rw [hmd] at hd; exact hd

/-- A loop carries its invariant from one iteration to the next. -/
theorem Triple.forRange {k : ℕ} {body : ℕ → Blk Unit} {I : ℕ → DiskPred}
    (hbody : ∀ s < k, Triple n (I s) (body s) (fun _ => I (s + 1)) C) :
    Triple n (I 0) (Blk.forRange k body) (fun _ => I k) C := by
  induction k with
  | zero => exact Triple.pure fun _ _ h => h
  | succ k ih =>
    exact Triple.bind (ih fun s hs => hbody s (Nat.lt_succ_of_lt hs)) fun _ => hbody k k.lt_succ_self

/-- A sum that does not fit stops the machine; after it the sum is exact. -/
theorem triple_addU64 {a b : UInt64} {Q : UInt64 → DiskPred}
    (hq : ∀ c disk tr, c.toNat = a.toNat + b.toNat → P disk tr → Q c disk tr)
    (hc : ∀ disk tr, P disk tr → C disk tr) : Triple n P (addU64 a b) Q C := by
  intro d hs hp
  rcases addU64_cases a b d with ⟨c, h, heq⟩ | ⟨h, -⟩
  · rw [h]
    exact ⟨hs, hq c _ _ heq hp⟩
  · rw [h]
    exact ⟨hs.capacity, hc _ _ hp⟩

theorem triple_readSector {sector : ℕ} {Q : Sector → DiskPred} (hcap : sector < n)
    (hq : ∀ disk tr, P disk tr → Q (disk sector) disk tr) :
    Triple n P (readSector sector) Q C := by
  intro d hs hp
  rw [readSector_of_healthy hs.reads (hs.capacity ▸ hcap)]
  exact ⟨hs, hq _ _ hp⟩

theorem nextWrite_steady {d : Device} (hs : Steady n d) {sector : ℕ} (hcap : sector < n) :
    d.nextWrite sector = .ok ∨ d.nextWrite sector = .cutBefore ∨ d.nextWrite sector = .cutAfter := by
  have hnot : ¬d.capacity ≤ sector := Nat.not_le.mpr (hs.capacity ▸ hcap)
  unfold Device.nextWrite
  cases hw : d.writes with
  | nil => exact .inl (by simp [hnot])
  | cons fate rest =>
    rcases hs.writes fate (hw ▸ List.mem_cons_self) with rfl | rfl | rfl
    · exact .inl (by simp [hnot])
    · exact .inr (.inl (by simp))
    · exact .inr (.inr (by simp [hnot]))

/-- The sector lands, or the power goes before or after it does. -/
theorem triple_writeSector {sector : ℕ} {data : Sector} {Q : Unit → DiskPred} (hcap : sector < n)
    (hq : ∀ disk tr, P disk tr →
      Q () (Function.update disk sector data) (tr ++ [(sector, data)]))
    (hbefore : ∀ disk tr, P disk tr → C disk tr)
    (hafter : ∀ disk tr, P disk tr →
      C (Function.update disk sector data) (tr ++ [(sector, data)])) :
    Triple n P (writeSector sector data) Q C := by
  intro d hs hp
  unfold writeSector
  rcases nextWrite_steady hs hcap with h | h | h
  · rw [h]
    exact ⟨⟨hs.capacity, hs.reads, fun fate hf => hs.writes fate (List.mem_of_mem_tail hf)⟩,
      hq _ _ hp⟩
  · rw [h]
    exact ⟨hs.capacity, hbefore _ _ hp⟩
  · rw [h]
    exact ⟨hs.capacity, hafter _ _ hp⟩

/-! ## Reads that may fail -/

/-- Started with `P` on a disk whose writes go well, and whatever its reads do, the
computation ends with `Q`, or with `E` if it returns `Err` or stops. -/
def Robust (capacity : ℕ) (P : DiskPred) (m : Blk α) (Q : α → DiskPred) (E : DiskPred) : Prop :=
  ∀ d, d.capacity = capacity → d.writes = [] → P d.disk d.trace →
    (m d).2.capacity = capacity ∧ (m d).2.writes = [] ∧
      match (m d).1 with
      | .ok a => Q a (m d).2.disk (m d).2.trace
      | _ => E (m d).2.disk (m d).2.trace

section Robust

variable {E : DiskPred}

theorem Robust.pure {a : α} (h : ∀ disk tr, P disk tr → Q a disk tr) :
    Robust n P (Pure.pure a : Blk α) Q E :=
  fun _ hcap hw hp => ⟨hcap, hw, h _ _ hp⟩

theorem Robust.fail {msg : String} (h : ∀ disk tr, P disk tr → E disk tr) :
    Robust n P (Blk.fail msg : Blk α) Q E :=
  fun _ hcap hw hp => ⟨hcap, hw, h _ _ hp⟩

theorem Robust.bind {f : α → Blk β} (hm : Robust n P m Q E) (hf : ∀ a, Robust n (Q a) (f a) R E) :
    Robust n P (m >>= f) R E := by
  intro d hcap hw hp
  have hd := hm d hcap hw hp
  rw [bind_apply]
  match hmd : m d with
  | (.ok a, d') => rw [hmd] at hd; exact hf a d' hd.1 hd.2.1 hd.2.2
  | (.err e, d') => rw [hmd] at hd; exact hd
  | (.halted why, d') => rw [hmd] at hd; exact hd

theorem Robust.conseq {Q' : α → DiskPred} (hm : Robust n P m Q E)
    (hp : ∀ disk tr, P' disk tr → P disk tr) (hq : ∀ a disk tr, Q a disk tr → Q' a disk tr) :
    Robust n P' m Q' E := by
  intro d hcap hw hp'
  have hd := hm d hcap hw (hp _ _ hp')
  match hmd : m d with
  | (.ok a, d') => rw [hmd] at hd; exact ⟨hd.1, hd.2.1, hq a _ _ hd.2.2⟩
  | (.err e, d') => rw [hmd] at hd; exact hd
  | (.halted why, d') => rw [hmd] at hd; exact hd

/-- A fact that follows from the precondition, whatever the disk, is known to the
rest. -/
theorem Robust.given {p : Prop} (hgiven : ∀ disk tr, P disk tr → p) (h : p → Robust n P m Q E) :
    Robust n P m Q E :=
  fun d hcap hw hp => h (hgiven _ _ hp) d hcap hw hp

theorem Robust.exists {ι : Type} {P : ι → DiskPred} (h : ∀ i, Robust n (P i) m Q E) :
    Robust n (fun disk tr => ∃ i, P i disk tr) m Q E :=
  fun d hcap hw ⟨i, hp⟩ => h i d hcap hw hp

/-- The caller goes on after an `Err`. -/
theorem Robust.attempt {R : Except String α → DiskPred} {F : DiskPred} (hm : Robust n P m Q F)
    (hok : ∀ a disk tr, Q a disk tr → R (.ok a) disk tr)
    (herr : ∀ e disk tr, F disk tr → R (.error e) disk tr)
    (hhalt : ∀ disk tr, F disk tr → E disk tr) : Robust n P (Blk.attempt m) R E := by
  intro d hcap hw hp
  have hd := hm d hcap hw hp
  unfold Blk.attempt
  match hmd : m d with
  | (.ok a, d') => rw [hmd] at hd; exact ⟨hd.1, hd.2.1, hok a _ _ hd.2.2⟩
  | (.err e, d') => rw [hmd] at hd; exact ⟨hd.1, hd.2.1, herr e _ _ hd.2.2⟩
  | (.halted why, d') => rw [hmd] at hd; exact ⟨hd.1, hd.2.1, hhalt _ _ hd.2.2⟩

/-- A loop carries its invariant from one iteration to the next. -/
theorem Robust.forRange {k : ℕ} {body : ℕ → Blk Unit} {I : ℕ → DiskPred}
    (hbody : ∀ s < k, Robust n (I s) (body s) (fun _ => I (s + 1)) E) :
    Robust n (I 0) (Blk.forRange k body) (fun _ => I k) E := by
  induction k with
  | zero => exact Robust.pure fun _ _ h => h
  | succ k ih =>
    exact Robust.bind (ih fun s hs => hbody s (Nat.lt_succ_of_lt hs)) fun _ => hbody k k.lt_succ_self

/-- What only reads leaves the disk as it is, however it ends. -/
theorem Robust.quiet (hm : Quiet m) (hq : ∀ a disk tr, P disk tr → Q a disk tr)
    (he : ∀ disk tr, P disk tr → E disk tr) : Robust n P m Q E := by
  intro d hcap hw hp
  obtain ⟨reads, hd⟩ := hm d
  rw [hd]
  refine ⟨hcap, hw, ?_⟩
  split
  · exact hq _ _ _ hp
  · exact he _ _ hp

/-- A sum that does not fit stops the machine; after it the sum is exact. -/
theorem robust_addU64 {a b : UInt64} {Q : UInt64 → DiskPred}
    (hq : ∀ c disk tr, c.toNat = a.toNat + b.toNat → P disk tr → Q c disk tr)
    (he : ∀ disk tr, P disk tr → E disk tr) : Robust n P (addU64 a b) Q E := by
  intro d hcap hw hp
  rcases addU64_cases a b d with ⟨c, h, heq⟩ | ⟨h, -⟩
  · rw [h]
    exact ⟨hcap, hw, hq c _ _ heq hp⟩
  · rw [h]
    exact ⟨hcap, hw, he _ _ hp⟩

/-- A sector that the disk has lands. -/
theorem robust_writeSector {sector : ℕ} {data : Sector} {Q : Unit → DiskPred} (hsector : sector < n)
    (hq : ∀ disk tr, P disk tr →
      Q () (Function.update disk sector data) (tr ++ [(sector, data)])) :
    Robust n P (writeSector sector data) Q E := by
  intro d hcap hw hp
  rw [writeSector_of_healthy data hw (hcap ▸ hsector)]
  exact ⟨hcap, hw, hq _ _ hp⟩

end Robust

end JungeyOs.Blk
