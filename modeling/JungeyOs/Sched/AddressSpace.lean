import JungeyOs.Sched.Handover

/-!
# Address spaces under the scheduler

`schedule` activates the address space of the next thread only if it differs from that of the previous
one (`kernel/src/sched/mod.rs`, lines 334–341), and never asks what the core has active. This is enough
as long as no thread is attached to a process after it was started, as in `start_process_inner`
(`kernel/src/main.rs`, lines 346–355).

Results:
* `Active.step`: a step keeps the address spaces of all cores right.
* `runs_in_own_space`: a thread never runs in another thread's address space.
-/

namespace JungeyOs.Sched

/-- The thread whose address space the core is to have active. -/
def Core.space (cpu : Core) : Option ℕ :=
  match cpu.place with
  | .off => none
  | .running => some cpu.current
  | .saving prev _ => some prev
  | .restoring _ next => some next
  | .finishing => some cpu.current

/-- A core goes on with its address space. -/
def Core.Goes (cpu cpu' : Core) : Prop :=
  ∀ t, cpu'.space = some t → cpu.space = some t ∧ cpu'.ttbr0 = cpu.ttbr0

theorem Core.Goes.refl (cpu : Core) : cpu.Goes cpu := fun _ ht => ⟨ht, rfl⟩

/-- Every core has the address space active that it is to have. -/
def Active (s : Sys) : Prop :=
  ∀ c t th, (s.cores c).space = some t → s.threads[t]? = some th → (s.cores c).ttbr0 = th.ttbr0

/-- `attach_process` is called for a thread that has not been started. -/
def AttachesNew (s : Sys) : Act → Prop
  | .attach _ tid _ => ∀ th, s.threads[tid]? = some th → th.state = .new
  | _ => True

/-- `init`, on the core with the empty address space of the boot thread active. -/
def InitActive (s : Sys) : Prop := Init s ∧ ∀ th, s.threads[0]? = some th → (s.cores 0).ttbr0 = th.ttbr0

section

variable {s s' : Sys} {c t : ℕ}

theorem Claims.holds_space (h : Claims s) (hc : (s.cores c).space = some t) :
    (s.cores c).Holds t := by
  have hplaced := h.placed c
  unfold Core.space at hc
  unfold Core.Placed at hplaced
  unfold Core.Holds
  cases hplace : (s.cores c).place <;> rw [hplace] at hc hplaced <;> cases hc <;> simp_all

/-- Steps that leave the address spaces of threads alone, and those of cores. -/
theorem Active.keep (h : Active s)
    (hthreads : ∀ t : ℕ, (s'.threads[t]?).map Thread.ttbr0 = (s.threads[t]?).map Thread.ttbr0)
    (hcores : ∀ c, (s.cores c).Goes (s'.cores c)) : Active s' := by
  intro c t th hc hth
  obtain ⟨hspace, httbr0⟩ := hcores c t hc
  have hmap := hthreads t
  rw [hth, Option.map_some] at hmap
  obtain ⟨x, hx, heq⟩ := Option.map_eq_some_iff.mp hmap.symm
  rw [httbr0, h c t x hspace hx, heq]

/-- A change of threads that leaves their address spaces alone. -/
theorem map_modify (l : List Thread) (i t : ℕ) {f : Thread → Thread}
    (hf : ∀ th, (f th).ttbr0 = th.ttbr0) :
    ((l.modify i f)[t]?).map Thread.ttbr0 = (l[t]?).map Thread.ttbr0 := by
  rw [modify_get, Option.map_map]
  congr 1
  funext th
  rw [Function.comp_apply]
  split_ifs
  · exact hf th
  · rfl

theorem Active.restate (h : Active s) (f : ℕ → State → State) : Active (s.restate f) := by
  refine h.keep (fun t => ?_) fun c => .refl _
  rw [restate_get, Option.map_map]
  rfl

/-- A new thread is on no core. -/
theorem Active.push (h : Active s) (hclaims : Claims s) {th : Thread} {regs : Context} :
    Active (s.push th regs) := by
  intro c t x hc hx
  have hlt := hclaims.lt_of_holds (hclaims.holds_space hc)
  refine h c t x hc ?_
  rwa [Sys.push, List.getElem?_append_left hlt] at hx

theorem Active.adopt (h : Active s) (hclaims : Claims s) (hoff : (s.cores c).place = .off)
    (ttbr0 : UInt64) : Active (s.adopt c ttbr0) := by
  intro d t x hd hx
  by_cases hdc : d = c
  · subst hdc
    simp only [Sys.adopt, Sys.setCore, Function.update_self, Core.space, Option.some.injEq] at hd ⊢
    subst hd
    simp only [Sys.adopt, Sys.setCore, Sys.push] at hx
    rw [List.getElem?_concat_length] at hx
    cases hx
    rfl
  · simp only [Sys.adopt, Sys.setCore, Function.update_of_ne hdc] at hd ⊢
    exact h.push hclaims d t x hd hx

/-- A thread that a core has claimed has been started, and is not attached any more. -/
theorem Active.attach (h : Active s) (hclaims : Claims s) {tid : ℕ} {ttbr0 : UInt64}
    (hnew : ∀ th, s.threads[tid]? = some th → th.state = .new) :
    Active { s with threads := s.threads.modify tid fun th => { th with ttbr0 := ttbr0 } } := by
  intro c t x hc hx
  obtain ⟨th, hth, -, hstate⟩ := hclaims.held c t (hclaims.holds_space hc)
  have hne : t ≠ tid := fun heq => hstate (hnew th (heq ▸ hth))
  refine h c t x hc ?_
  dsimp only at hx
  rw [modify_get, hth] at hx
  simpa [hne.symm, hne, hth] using hx

/-- The core goes on with the address space of the thread that it leaves. -/
theorem Active.claim (h : Active s) (hplace : (s.cores c).place = .running) (next : ℕ) :
    Active (s.claim c next) := by
  refine h.keep (fun t => map_modify _ _ _ fun _ => rfl) ?_
  refine forall_setCore (P := fun d core => (s.cores d).Goes core) (fun t ht => ?_) fun _ _ => .refl _
  rw [Core.space, hplace]
  exact ⟨ht, rfl⟩

/-- `activate`, if the address spaces differ. -/
theorem Active.save (h : Active s) (hclaims : Claims s) {prev next : ℕ}
    (hplace : (s.cores c).place = .saving prev next) : Active (s.save c prev next) := by
  have hplaced := hclaims.placed c
  rw [Core.Placed, hplace] at hplaced
  obtain ⟨hrel, hcur, -⟩ := hplaced
  have hon : (s.cores c).place ≠ .off := by simp [hplace]
  obtain ⟨p, hp, -⟩ := hclaims.held c prev ⟨hon, .inr hrel⟩
  obtain ⟨n, hn, -⟩ := hclaims.held c next ⟨hon, .inl hcur.symm⟩
  have hprev : (s.cores c).ttbr0 = p.ttbr0 := h c prev p (by rw [Core.space, hplace]) hp
  intro d t th hd hth
  have hmap := map_modify s.threads prev t (f := fun th => { th with ctx := (s.cores c).regs })
    fun _ => rfl
  have hth' : ((s.threads.modify prev fun th => { th with ctx := (s.cores c).regs })[t]?) = some th := hth
  rw [hth', Option.map_some] at hmap
  obtain ⟨x, hx, heq⟩ := Option.map_eq_some_iff.mp hmap.symm
  by_cases hdc : d = c
  · subst hdc
    simp only [Sys.save, Sys.setCore, Function.update_self, Core.space, Option.some.injEq] at hd ⊢
    subst hd
    cases hx.symm.trans hn
    rw [← heq, activated, hp, hn]
    dsimp only
    split_ifs with hdiff
    · rfl
    · exact hprev.trans (not_not.mp hdiff).symm
  · simp only [Sys.save, Sys.setCore, Function.update_of_ne hdc] at hd ⊢
    rw [h d t x hd hx, heq]

theorem Active.restore (h : Active s) (hclaims : Claims s) {prev next : ℕ}
    (hplace : (s.cores c).place = .restoring prev next) : Active (s.restore c next) := by
  obtain ⟨-, -, hcur, -⟩ := hclaims.restoring hplace
  refine h.keep (fun _ => rfl) ?_
  refine forall_setCore (P := fun d core => (s.cores d).Goes core) (fun t ht => ?_) fun _ _ => .refl _
  rw [Core.space, hplace]
  exact ⟨hcur ▸ ht, rfl⟩

theorem Active.finishSwitch (h : Active s) (hplace : (s.cores c).place = .finishing) :
    Active (s.finishSwitch c) := by
  refine h.keep (fun t => ?_) ?_
  · simp only [Sys.finishSwitch, Sys.setCore]
    cases (s.cores c).releasePrev with
    | none => rfl
    | some prev => exact map_modify _ _ _ fun _ => rfl
  · refine forall_setCore (P := fun d core => (s.cores d).Goes core) (fun t ht => ?_) fun _ _ => .refl _
    rw [Core.space, hplace]
    exact ⟨ht, rfl⟩

theorem Active.compute (h : Active s) (regs : Context) : Active (s.compute c regs) := by
  refine h.keep (fun _ => rfl) ?_
  exact forall_setCore (P := fun d core => (s.cores d).Goes core) (fun _ ht => ⟨ht, rfl⟩)
    fun _ _ => .refl _

/-- A step keeps the address spaces of all cores right. -/
theorem Active.step (h : Active s) (hclaims : Claims s) {a : Act} (hok : AttachesNew s a)
    (hs : s.step a = some s') : Active s' := by
  cases a <;> simp only [Sys.step] at hs
  case adopt c ttbr0 =>
    split_ifs at hs with hoff
    cases hs
    exact h.adopt hclaims hoff ttbr0
  case spawn =>
    split_ifs at hs
    cases hs
    exact h.push hclaims
  case attach =>
    split_ifs at hs
    cases hs
    exact h.attach hclaims hok
  case compute =>
    split_ifs at hs
    cases hs
    exact h.compute _
  case schedule =>
    split_ifs at hs with hplace hsame
    · cases hs
      exact h
    · cases hs
      exact h.claim hplace _
  case save =>
    split at hs
    · rename_i prev next hplace
      cases hs
      exact h.save hclaims hplace
    · cases hs
  case restore =>
    split at hs
    · rename_i prev next hplace
      cases hs
      exact h.restore hclaims hplace
    · cases hs
  case finishSwitch =>
    split_ifs at hs with hplace
    cases hs
    exact h.finishSwitch hplace
  -- the others change the states of threads
  all_goals
    split_ifs at hs
    cases hs
    exact h.restate _

/-- The boot thread has the address space that core 0 has active. -/
theorem active_init (h : InitActive s) : Active s := by
  obtain ⟨⟨cores, trampoline, entry, stackTop, ttbr0, rfl⟩, h0⟩ := h
  intro c t th hc hth
  by_cases hc0 : c = 0
  · subst hc0
    cases hc
    exact h0 th hth
  · simp [Core.space, Sys.init, hc0] at hc

/-- In every run in which threads are attached before they are started, a core never executes a thread,
nor restores one, while another thread's address space is active on it. -/
theorem runs_in_own_space (h : Run.Reachable Sys.step AttachesNew InitActive s) {th : Thread}
    (hth : s.threads[t]? = some th) :
    ((s.cores c).executing = some t → (s.cores c).ttbr0 = th.ttbr0) ∧
    ∀ prev, (s.cores c).place = .restoring prev t → (s.cores c).ttbr0 = th.ttbr0 := by
  have hinv : Claims s ∧ Active s := by
    refine h.invariant (fun s => Claims s ∧ Active s) (fun s hs => ⟨claims_init hs.1, active_init hs⟩) ?_
    rintro s a s' ⟨hclaims, hactive⟩ hok hs
    exact ⟨hclaims.did (Sys.step_did hs), hactive.step hclaims hok hs⟩
  refine ⟨fun hexec => hinv.2 c t th ?_ hth, fun prev hplace => hinv.2 c t th ?_ hth⟩
  · unfold Core.executing at hexec
    unfold Core.space
    cases hplace : (s.cores c).place <;> rw [hplace] at hexec <;> cases hexec <;> rfl
  · rw [Core.space, hplace]

end

/-- Core 0 spawns thread 2, attaches it to a process, starts it and switches to it. -/
def oneProcess : List Act :=
  [.spawn 0 0x1000 0x2000 7 0x9000 0x40, .attach 0 2 0x50, .start 0 2, .schedule 0, .save 0]

def oneProcessInit : Sys :=
  Sys.init (fun _ => ⟨0, 0, 0, 0, none, Context.empty, 0x40, .off⟩) 0x1000 0x3000 0x8000 0x40

def oneProcessState : Sys := (Run.exec Sys.step oneProcessInit oneProcess).getD oneProcessInit

theorem runs_in_own_space_oneProcess :
    (oneProcessState.cores 0).place = .restoring 0 2 ∧ (oneProcessState.cores 0).ttbr0 = 0x50 := by
  have hinit : InitActive oneProcessInit :=
    ⟨⟨_, _, _, _, _, rfl⟩, fun th hth => by cases hth; rfl⟩
  have hrun : Run.exec Sys.step oneProcessInit oneProcess = some oneProcessState := rfl
  have hmeets : Run.Meets Sys.step AttachesNew oneProcessInit oneProcess :=
    .cons rfl trivial (.cons rfl (fun th hth => by cases hth; rfl)
      (.cons rfl trivial (.cons rfl trivial (.cons rfl trivial trivial))))
  have hplace : (oneProcessState.cores 0).place = .restoring 0 2 := rfl
  exact ⟨hplace, (runs_in_own_space ((Run.Reachable.start hinit).exec hmeets hrun) (c := 0) (t := 2)
    rfl).2 0 hplace⟩

end JungeyOs.Sched
