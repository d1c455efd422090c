import JungeyOs.Virtio

/-!
# The latest request of the device

The driver may give up on a request that the device has still to carry out (`user/src/blkdrv.rs`, lines
264–291). What the memory of the device holds is followed here from one request to the next, also
while the driver does something else.

Results:
* `Held.step`: what every step keeps, if each request is made when the device has nothing left to write.
* `Held.step_disk`: the disk changes by the latest request only.
-/

namespace JungeyOs.Virtio

/-- The request that was made last. -/
def Sys.asked (s : Sys) : Option Request :=
  match s.pc with
  | .idle => s.log.head?.map (·.req)
  | .setup req _ => some req
  | .waiting req _ => some req
  | .woken req => some req

/-- The driver is not at the writes that make up a request. -/
def Pc.Submitted : Pc → Prop
  | .setup _ _ => False
  | _ => True

/-- The device has the sector of what it carries out. -/
def Within (capacity : ℕ) (s : Sys) : Act → Prop
  | .execute status =>
    match s.phase with
    | .fetched _ sector _ _ => capacity ≤ sector → status ≠ 0
    | _ => True
  | _ => True

instance (capacity : ℕ) (s : Sys) (a : Act) : Decidable (Within capacity s a) := by
  unfold Within
  split
  · split <;> infer_instance
  · infer_instance

/-- The device has carried the latest request out. -/
def Done (s : Sys) : Prop := s.phase = .executed 0 ∨ s.Settled ∧ s.dma.status = 0

/-- What the device does with the latest request. -/
structure Held (capacity : ℕ) (s : Sys) : Prop where
  inv : Inv s
  served : s.pc.Submitted → ∀ req, s.asked = some req → Served s req
  within : s.pc.Submitted → ∀ req, s.asked = some req → Done s → req.sector < capacity
  returned : s.pc = .idle → ∀ r ∈ s.log.head?, r.ok = true →
    s.Settled ∧ s.dma.status = 0 ∧ r.onDevice = s.disk r.req.sector
  quiet : s.asked = none → s.Settled

section

variable {capacity : ℕ} {s s' : Sys} {a : Act} {req : Request}

theorem Sys.Init.held (h : s.Init) : Held capacity s := by
  obtain ⟨hpc, hphase, havail, -, hseen, -, -, -, hlog⟩ := id h
  have hasked : s.asked = none := by
    rw [Sys.asked, hpc, hlog]
    rfl
  refine ⟨inv_init h, fun _ req hreq => ?_, fun _ req hreq => ?_, fun _ r hr => ?_, fun _ => ?_⟩
  · rw [hasked] at hreq
    cases hreq
  · rw [hasked] at hreq
    cases hreq
  · rw [hlog] at hr
    cases hr
  · exact ⟨by rw [hseen, havail], .inl hphase⟩

/-- A step of the device. -/
def Act.OfDevice : Act → Prop
  | .request _ => False
  | .run _ => False
  | _ => True

theorem fetch_eq (hs : s.step .fetch = some s') : s.phase = .idle ∧ s.seen ≠ s.dma.availIdx ∧ s' = { s with
    seen := s.seen + 1, phase := .fetched s.dma.kind s.dma.sector s.dma.data s.dma.writable } := by
  simp only [Sys.step] at hs
  split at hs
  · rename_i hphase
    split_ifs at hs with hseen
    exact ⟨hphase, hseen, (Option.some.inj hs).symm⟩
  · cases hs

theorem execute_eq {status : UInt8} (hs : s.step (.execute status) = some s') :
    ∃ kind sector data writable, s.phase = .fetched kind sector data writable ∧
      s' = s.execute kind sector data writable status := by
  simp only [Sys.step] at hs
  split at hs
  · rename_i kind sector data writable hphase
    exact ⟨kind, sector, data, writable, hphase, (Option.some.inj hs).symm⟩
  · cases hs

theorem report_eq (hs : s.step .report = some s') : ∃ status, s.phase = .executed status ∧
    s' = { s with dma := { s.dma with status := status }, phase := .reported } := by
  simp only [Sys.step] at hs
  split at hs
  · rename_i status hphase
    exact ⟨status, hphase, (Option.some.inj hs).symm⟩
  · cases hs

theorem complete_eq (hs : s.step .complete = some s') : s.phase = .reported ∧
    s' = { s with dma := { s.dma with usedIdx := s.dma.usedIdx + 1 }, phase := .idle } := by
  simp only [Sys.step] at hs
  split at hs
  · rename_i hphase
    exact ⟨hphase, (Option.some.inj hs).symm⟩
  · cases hs

/-- What carrying out a request changes. -/
theorem execute_keeps {kind : Kind} {sector : ℕ} {data : Sector} {writable : Bool} {status : UInt8} :
    (s.execute kind sector data writable status).pc = s.pc ∧
    (s.execute kind sector data writable status).log = s.log ∧
    (∃ st, (s.execute kind sector data writable status).phase = .executed st ∧ (st = 0 → status = 0)) ∧
    ((s.execute kind sector data writable status).disk = s.disk ∨ status = 0 ∧ kind = .write ∧
      (s.execute kind sector data writable status).disk = Function.update s.disk sector data) := by
  unfold Sys.execute
  by_cases hstatus : status = 0
  · rw [if_neg (not_not.mpr hstatus)]
    cases kind with
    | write => exact ⟨rfl, rfl, ⟨0, rfl, fun _ => hstatus⟩, .inr ⟨hstatus, rfl, rfl⟩⟩
    | read =>
      cases writable with
      | true => exact ⟨rfl, rfl, ⟨0, rfl, fun _ => hstatus⟩, .inl rfl⟩
      | false => exact ⟨rfl, rfl, ⟨1, rfl, fun _ => hstatus⟩, .inl rfl⟩
  · rw [if_pos hstatus]
    exact ⟨rfl, rfl, ⟨status, rfl, id⟩, .inl rfl⟩

/-- What is left alone by a round of `wait`, and by what comes after it. -/
def Sys.SameDevice (s s' : Sys) : Prop :=
  s'.dma = s.dma ∧ s'.seen = s.seen ∧ s'.phase = s.phase ∧ s'.disk = s.disk

theorem await_keeps {checks : ℕ} {irq : ℤ} :
    s.SameDevice (s.await req checks irq) ∧ (s.await req checks irq).asked = some req ∧
      ((s.await req checks irq).pc = .idle → ∀ r ∈ (s.await req checks irq).log.head?, r.ok = false) := by
  unfold Sys.await
  by_cases hused : s.dma.usedIdx ≠ s.lastUsed
  · rw [if_pos hused]
    exact ⟨⟨rfl, rfl, rfl, rfl⟩, rfl, fun hidle => by cases hidle⟩
  · rw [if_neg hused]
    cases checks with
    | zero =>
      refine ⟨⟨rfl, rfl, rfl, rfl⟩, rfl, fun _ r hr => ?_⟩
      obtain rfl := Option.some.inj hr
      rfl
    | succ checks => exact ⟨⟨rfl, rfl, rfl, rfl⟩, rfl, fun hidle => by cases hidle⟩

theorem collect_keeps : s.SameDevice (s.collect req) ∧ (s.collect req).asked = some req ∧
    ∀ r ∈ (s.collect req).log.head?, r.ok = true →
      s.dma.status = 0 ∧ r.onDevice = s.disk r.req.sector := by
  unfold Sys.collect
  by_cases hstatus : s.dma.status = 0
  · rw [if_neg (not_not.mpr hstatus)]
    refine ⟨⟨rfl, rfl, rfl, rfl⟩, rfl, fun r hr _ => ⟨hstatus, ?_⟩⟩
    obtain rfl := Option.some.inj hr
    rfl
  · rw [if_pos hstatus]
    refine ⟨⟨rfl, rfl, rfl, rfl⟩, rfl, fun r hr hrok => ?_⟩
    obtain rfl := Option.some.inj hr
    cases hrok

theorem step_withPc (ha : a.OfDevice) (pc : Pc) :
    ({ s with pc := pc } : Sys).step a = (s.step a).map fun t => { t with pc := pc } := by
  cases a with
  | request req => exact ha.elim
  | run irq => exact ha.elim
  | fetch =>
    simp only [Sys.step]
    cases s.phase with
    | idle => by_cases hseen : s.seen = s.dma.availIdx <;> simp [hseen]
    | _ => rfl
  | execute status =>
    simp only [Sys.step]
    cases s.phase with
    | fetched kind sector data writable =>
      simp only [Sys.execute, Option.map_some, Option.some.injEq]
      by_cases hstatus : status = 0
      · cases kind <;> cases writable <;> simp [hstatus]
      · simp [hstatus]
    | _ => rfl
  | report =>
    simp only [Sys.step]
    cases s.phase <;> rfl
  | complete =>
    simp only [Sys.step]
    cases s.phase <;> rfl

theorem device_keeps (ha : a.OfDevice) (hs : s.step a = some s') : s'.pc = s.pc ∧ s'.log = s.log := by
  cases a with
  | request req => exact ha.elim
  | run irq => exact ha.elim
  | fetch =>
    obtain ⟨-, -, rfl⟩ := fetch_eq hs
    exact ⟨rfl, rfl⟩
  | execute status =>
    obtain ⟨kind, sector, data, writable, -, rfl⟩ := execute_eq hs
    exact ⟨execute_keeps.1, execute_keeps.2.1⟩
  | report =>
    obtain ⟨status, -, rfl⟩ := report_eq hs
    exact ⟨rfl, rfl⟩
  | complete =>
    obtain ⟨-, rfl⟩ := complete_eq hs
    exact ⟨rfl, rfl⟩

/-- The device goes on with a request in the same way whatever the driver does. -/
theorem Served.device (h : Served s req) (hhonest : Honest s) (ha : a.OfDevice)
    (hs : s.step a = some s') : Served s' req := by
  have ht : Inv ({ s with pc := .waiting req 0 } : Sys) := ⟨h.of_eq rfl rfl rfl rfl, hhonest⟩
  have hstep : ({ s with pc := .waiting req 0 } : Sys).step a = some { s' with pc := .waiting req 0 } := by
    rw [step_withPc ha, hs]
    rfl
  have hok : Ok ({ s with pc := .waiting req 0 } : Sys) a := by
    cases a with
    | request req => exact ha.elim
    | _ => trivial
  have hserved : Served ({ s' with pc := .waiting req 0 } : Sys) req := (inv_step ht hok hstep).alone
  exact hserved.of_eq rfl rfl rfl rfl

theorem asked_step (ha : ∀ req, a ≠ .request req) (hs : s.step a = some s') : s'.asked = s.asked := by
  by_cases hdevice : a.OfDevice
  · obtain ⟨hpc, hlog⟩ := device_keeps hdevice hs
    rw [Sys.asked, Sys.asked, hpc, hlog]
  · cases a with
    | request req => exact absurd rfl (ha req)
    | run irq =>
      simp only [Sys.step] at hs
      split at hs
      · cases hs
      · rename_i req k hpc
        cases hs
        rw [Sys.asked, Sys.asked, hpc]
        rcases k with _ | _ | _ | _ | _ | k <;> rfl
      · rename_i req checks hpc
        cases hs
        rw [await_keeps.2.1, Sys.asked, hpc]
      · rename_i req hpc
        cases hs
        rw [collect_keeps.2.1, Sys.asked, hpc]
    | _ => exact absurd trivial hdevice

/-- A device that has nothing left to write takes no step but to report the last one done. -/
theorem Sys.Settled.device (h : s.Settled) (ha : a.OfDevice) (hs : s.step a = some s') :
    s'.Settled ∧ s'.dma.status = s.dma.status ∧ s'.disk = s.disk := by
  obtain ⟨hseen, hphase⟩ := h
  cases a with
  | request req => exact ha.elim
  | run irq => exact ha.elim
  | fetch => exact absurd hseen (fetch_eq hs).2.1
  | execute status =>
    obtain ⟨kind, sector, data, writable, hfetched, -⟩ := execute_eq hs
    rcases hphase with hphase | hphase <;> rw [hphase] at hfetched <;> cases hfetched
  | report =>
    obtain ⟨status, hexecuted, -⟩ := report_eq hs
    rcases hphase with hphase | hphase <;> rw [hphase] at hexecuted <;> cases hexecuted
  | complete =>
    obtain ⟨-, rfl⟩ := complete_eq hs
    exact ⟨⟨hseen, .inl rfl⟩, rfl, rfl⟩

/-- What the device carries out is the latest request. -/
theorem Held.fetched (h : Held capacity s) {kind : Kind} {sector : ℕ} {data : Sector} {writable : Bool}
    (hphase : s.phase = .fetched kind sector data writable) :
    ∃ req, s.asked = some req ∧ s.pc.Submitted ∧ kind = req.kind ∧ sector = req.sector ∧
      (req.kind = .write → data = req.data) := by
  have hunsettled : ¬s.Settled := by
    rintro ⟨-, hp | hp⟩ <;> rw [hphase] at hp <;> cases hp
  obtain ⟨req, hreq⟩ := Option.ne_none_iff_exists'.mp fun hnone => hunsettled (h.quiet hnone)
  have hsubmitted : s.pc.Submitted := by
    have halone := h.inv.alone
    unfold Alone at halone
    cases hpc : s.pc with
    | setup req k =>
      rw [hpc] at halone
      exact hunsettled halone.settled
    | _ => trivial
  refine ⟨req, hreq, hsubmitted, ?_⟩
  cases h.served hsubmitted req hreq with
  | queued avail phase _ _ _ _ _ => rcases phase with hp | hp <;> rw [hphase] at hp <;> cases hp
  | executed seen phase _ _ => rw [hphase] at phase; cases phase
  | reported settled done => exact absurd settled hunsettled
  | fetched seen phase status hdata =>
    rw [hphase] at phase
    cases phase
    exact ⟨rfl, rfl, hdata⟩

/-! ## The steps -/

theorem Held.device (h : Held capacity s) (ha : a.OfDevice) (hwithin : Within capacity s a)
    (hs : s.step a = some s') : Held capacity s' := by
  have hok : Ok s a := by
    cases a with
    | request req => exact ha.elim
    | _ => trivial
  obtain ⟨hpc, hlog⟩ := device_keeps ha hs
  have hasked : s'.asked = s.asked := by rw [Sys.asked, Sys.asked, hpc, hlog]
  refine ⟨inv_step h.inv hok hs, fun hsub req hreq => ?_, fun hsub req hreq hdone => ?_,
    fun hidle r hr hrok => ?_, fun hnone => ?_⟩
  · rw [hpc] at hsub
    rw [hasked] at hreq
    exact (h.served hsub req hreq).device h.inv.honest ha hs
  · rw [hpc] at hsub
    rw [hasked] at hreq
    by_cases hold : Done s
    · exact h.within hsub req hreq hold
    · cases a with
      | request req => exact ha.elim
      | run irq => exact ha.elim
      | fetch =>
        obtain ⟨-, -, rfl⟩ := fetch_eq hs
        rcases hdone with hphase | ⟨⟨-, hphase | hphase⟩, -⟩ <;> cases hphase
      | execute status =>
        obtain ⟨kind, sector, data, writable, hphase, rfl⟩ := execute_eq hs
        obtain ⟨req', hreq', -, -, hsector, -⟩ := h.fetched hphase
        obtain rfl : req' = req := Option.some.inj (hreq'.symm.trans hreq)
        have hkeeps : ∃ st, (s.execute kind sector data writable status).phase = .executed st ∧
            (st = 0 → status = 0) := execute_keeps.2.2.1
        obtain ⟨st, hst, hzero⟩ := hkeeps
        by_contra hlt
        rw [Within, hphase] at hwithin
        have hstatus : status ≠ 0 := hwithin (by omega)
        rcases hdone with hexec | ⟨⟨-, hexec | hexec⟩, -⟩ <;> rw [hst] at hexec
        · exact hstatus (hzero (Phase.executed.inj hexec))
        · cases hexec
        · cases hexec
      | report =>
        obtain ⟨status, hphase, rfl⟩ := report_eq hs
        rcases hdone with hexec | ⟨-, hstatus⟩
        · cases hexec
        · exact absurd (.inl (hphase.trans (congrArg _ hstatus))) hold
      | complete =>
        obtain ⟨hphase, rfl⟩ := complete_eq hs
        rcases hdone with hexec | ⟨⟨hseen, -⟩, hstatus⟩
        · cases hexec
        · exact absurd (.inr ⟨⟨hseen, .inr hphase⟩, hstatus⟩) hold
  · rw [hpc] at hidle
    rw [hlog] at hr
    obtain ⟨hsettled, hstatus, hdata⟩ := h.returned hidle r hr hrok
    obtain ⟨hsettled', hstatus', hdisk⟩ := hsettled.device ha hs
    exact ⟨hsettled', hstatus'.trans hstatus, by rw [hdisk, hdata]⟩
  · rw [hasked] at hnone
    exact ((h.quiet hnone).device ha hs).1

/-- Where neither memory nor device change, only the place of the driver does. -/
theorem Held.sameDevice (h : Held capacity s) (hsub : s.pc.Submitted) (hasked : s'.asked = s.asked)
    (hsame : s.SameDevice s') : (∀ req, s'.asked = some req → Served s' req) ∧
      ∀ req, s'.asked = some req → Done s' → req.sector < capacity := by
  obtain ⟨hdma, hseen, hphase, hdisk⟩ := hsame
  refine ⟨fun req hreq => ?_, fun req hreq hdone => ?_⟩
  · rw [hasked] at hreq
    exact (h.served hsub req hreq).of_eq hdma hseen hphase hdisk
  · rw [hasked] at hreq
    rw [Done, Sys.Settled, hphase, hseen, hdma] at hdone
    exact h.within hsub req hreq hdone

/-- A write of the driver that makes up a request. After the last one the request is with the device. -/
theorem Held.setup (h : Held capacity s) {k : ℕ} (hpc : s.pc = .setup req k) (hinv : Inv (s.setup req k))
    (hasked : (s.setup req k).asked = some req) : Held capacity (s.setup req k) := by
  have hnone : (s.setup req k).asked = none → (s.setup req k).Settled := fun hnone => by
    rw [hasked] at hnone
    cases hnone
  rcases Nat.lt_or_ge k 5 with hk | hk
  · have hsetup : ∃ j, (s.setup req k).pc = .setup req j := by
      rcases k with _ | _ | _ | _ | _ | k
      · exact ⟨_, rfl⟩
      · exact ⟨_, rfl⟩
      · exact ⟨_, rfl⟩
      · exact ⟨_, rfl⟩
      · exact ⟨_, rfl⟩
      · omega
    obtain ⟨j, hj⟩ := hsetup
    have hnot : ¬(s.setup req k).pc.Submitted := by
      rw [hj]
      exact id
    exact ⟨hinv, fun hsub => absurd hsub hnot, fun hsub => absurd hsub hnot,
      (fun hidle => by rw [hj] at hidle; cases hidle), hnone⟩
  · obtain ⟨k, rfl⟩ := Nat.exists_eq_add_of_le' hk
    have hwritten : Written s req (k + 5) := by
      have halone := h.inv.alone
      rwa [Alone, hpc] at halone
    refine ⟨hinv, fun _ req' hreq => ?_, fun _ req' hreq hdone => ?_, (fun hidle => by cases hidle),
      hnone⟩
    · obtain rfl : req = req' := Option.some.inj hreq
      exact hinv.alone
    · rcases hdone with hphase | ⟨⟨hseen, -⟩, -⟩
      · rcases hwritten.settled.2 with hp | hp <;> rw [Sys.setup] at hphase <;>
          exact absurd (hp.symm.trans hphase) (by simp)
      · have hne : s.seen ≠ s.dma.availIdx + 1 := by
          rw [hwritten.settled.1]
          intro heq
          simp at heq
        exact absurd hseen hne

/-- A round of `wait`. -/
theorem Held.await (h : Held capacity s) {checks : ℕ} {irq : ℤ} (hpc : s.pc = .waiting req checks)
    (hinv : Inv (s.await req checks irq)) : Held capacity (s.await req checks irq) := by
  have hsub : s.pc.Submitted := by
    rw [hpc]
    trivial
  have hasked : (s.await req checks irq).asked = s.asked := by rw [await_keeps.2.1, Sys.asked, hpc]
  obtain ⟨hserved, hwithin⟩ := h.sameDevice hsub hasked await_keeps.1
  refine ⟨hinv, fun _ => hserved, fun _ => hwithin, fun hidle r hr hrok => ?_, fun hnone => ?_⟩
  · rw [await_keeps.2.2 hidle r hr] at hrok
    cases hrok
  · rw [await_keeps.2.1] at hnone
    cases hnone

/-- The end of a request that the device has completed. -/
theorem Held.collect (h : Held capacity s) (hpc : s.pc = .woken req) (hinv : Inv (s.collect req)) :
    Held capacity (s.collect req) := by
  have hsub : s.pc.Submitted := by
    rw [hpc]
    trivial
  have hasked : (s.collect req).asked = s.asked := by rw [collect_keeps.2.1, Sys.asked, hpc]
  have hserved : Served s req := h.served hsub req (by rw [Sys.asked, hpc])
  obtain ⟨hserved', hwithin⟩ := h.sameDevice hsub hasked collect_keeps.1
  refine ⟨hinv, fun _ => hserved', fun _ => hwithin, fun _ r hr hrok => ?_, fun hnone => ?_⟩
  · obtain ⟨hstatus, hdata⟩ := collect_keeps.2.2 r hr hrok
    have hsettled : s.Settled := by
      cases hserved with
      | queued _ _ _ _ status _ _ => rw [hstatus] at status; cases status
      | fetched _ _ status _ => rw [hstatus] at status; cases status
      | executed _ _ unreported _ => rw [hstatus] at unreported; cases unreported
      | reported settled _ => exact settled
    have hsame : s.SameDevice (s.collect req) := collect_keeps.1
    obtain ⟨hdma, hseen, hphase, hdisk⟩ := hsame
    rw [Sys.Settled, hdma, hseen, hphase, hdisk]
    exact ⟨hsettled, hstatus, hdata⟩
  · rw [collect_keeps.2.1] at hnone
    cases hnone

/-- The driver goes on. -/
theorem Held.run (h : Held capacity s) {irq : ℤ} (hs : s.step (.run irq) = some s') : Held capacity s' := by
  have hok : Ok s (.run irq) := trivial
  have hinv : Inv s' := inv_step h.inv hok hs
  have hasked : s'.asked = s.asked := asked_step (by simp) hs
  simp only [Sys.step] at hs
  split at hs
  · cases hs
  · rename_i req k hpc
    cases hs
    exact h.setup hpc hinv (hasked.trans (by rw [Sys.asked, hpc]))
  · rename_i req checks hpc
    cases hs
    exact h.await hpc hinv
  · rename_i req hpc
    cases hs
    exact h.collect hpc hinv

theorem Held.step (h : Held capacity s) (hok : Ok s a) (hwithin : Within capacity s a)
    (hs : s.step a = some s') : Held capacity s' := by
  cases a with
  | request req =>
    have hinv : Inv s' := inv_step h.inv hok hs
    simp only [Sys.step] at hs
    split at hs
    · cases hs
      exact ⟨hinv, False.elim, False.elim, (fun hidle => by cases hidle), (fun hnone => by cases hnone)⟩
    · cases hs
  | run irq => exact h.run hs
  | fetch => exact h.device (a := .fetch) trivial hwithin hs
  | execute status => exact h.device (a := .execute status) trivial hwithin hs
  | report => exact h.device (a := .report) trivial hwithin hs
  | complete => exact h.device (a := .complete) trivial hwithin hs

/-- The disk changes by the latest request only. -/
theorem Held.step_disk (h : Held capacity s) (hwithin : Within capacity s a) (hs : s.step a = some s') :
    s'.disk = s.disk ∨ ∃ req, s.asked = some req ∧ req.kind = .write ∧ req.sector < capacity ∧
      s'.disk = Function.update s.disk req.sector req.data := by
  cases a with
  | request req =>
    simp only [Sys.step] at hs
    split at hs <;> cases hs
    exact .inl rfl
  | run irq =>
    simp only [Sys.step] at hs
    split at hs
    · cases hs
    · rename_i req k hpc
      cases hs
      rcases k with _ | _ | _ | _ | _ | k <;> exact .inl rfl
    · cases hs
      exact .inl await_keeps.1.2.2.2
    · cases hs
      exact .inl collect_keeps.1.2.2.2
  | fetch =>
    obtain ⟨-, -, rfl⟩ := fetch_eq hs
    exact .inl rfl
  | execute status =>
    obtain ⟨kind, sector, data, writable, hphase, rfl⟩ := execute_eq hs
    obtain ⟨req, hreq, -, rfl, rfl, hdata⟩ := h.fetched hphase
    have hdisk : (s.execute req.kind req.sector data writable status).disk = s.disk ∨
        status = 0 ∧ req.kind = .write ∧ (s.execute req.kind req.sector data writable status).disk =
          Function.update s.disk req.sector data := execute_keeps.2.2.2
    rcases hdisk with hsame | ⟨hstatus, hkind, hupdate⟩
    · exact .inl hsame
    · have hlt : req.sector < capacity := by
        by_contra hge
        rw [Within, hphase] at hwithin
        exact hwithin (Nat.not_lt.mp hge) hstatus
      exact .inr ⟨req, hreq, hkind, hlt, by rw [hupdate, hdata hkind]⟩
  | report =>
    obtain ⟨status, -, rfl⟩ := report_eq hs
    exact .inl rfl
  | complete =>
    obtain ⟨-, rfl⟩ := complete_eq hs
    exact .inl rfl

end

end JungeyOs.Virtio
