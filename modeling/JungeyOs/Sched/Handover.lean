import JungeyOs.Sched.Schedule

/-!
# The hand-over of threads between cores

A core keeps a thread claimed through `on_cpu` from the choice in `schedule` until
`finish_switch` on the same core has released it, after its context was saved.

Results:
* `Claims.did`, `Saved.did`: every step keeps the claims of the cores and the saved
  contexts.
* `threads_run_once`: no thread runs on two cores or from a context that is still being
  saved, idle threads stay on their cores, and only runnable threads are chosen.
-/

namespace JungeyOs.Sched

/-! ## Claims -/

/-- The core has the thread claimed. -/
def Core.Holds (cpu : Core) (t : ℕ) : Prop :=
  cpu.place ≠ .off ∧ (t = cpu.current ∨ cpu.releasePrev = some t)

/-- What a core has claimed fits the place where it stands. -/
def Core.Placed (cpu : Core) : Prop :=
  match cpu.place with
  | .off => True
  | .running => cpu.releasePrev = none
  | .saving prev next => cpu.releasePrev = some prev ∧ cpu.current = next ∧ prev ≠ next
  | .restoring prev next => cpu.releasePrev = some prev ∧ cpu.current = next ∧ prev ≠ next
  | .finishing => ∃ prev, cpu.releasePrev = some prev ∧ prev ≠ cpu.current

/-- The claims of the cores and the thread table agree. -/
structure Claims (s : Sys) : Prop where
  owner : ∀ t th c, s.threads[t]? = some th → th.onCpu = some c → (s.cores c).Holds t
  held : ∀ c t, (s.cores c).Holds t →
    ∃ th, s.threads[t]? = some th ∧ th.onCpu = some c ∧ th.state ≠ .new
  pinned : ∀ t th a, s.threads[t]? = some th → th.affinity = some a →
    (s.cores a).place ≠ .off ∧ t = (s.cores a).idle ∧ th.state = .runnable ∧
      ∀ c, th.onCpu = some c → c = a
  idle : ∀ c, (s.cores c).place ≠ .off →
    ∃ th, s.threads[(s.cores c).idle]? = some th ∧ th.affinity = some c
  placed : ∀ c, (s.cores c).Placed

/-- A thread that no core executes has its registers saved, and one that a core executes
has them on that core. -/
structure Saved (s : Sys) : Prop where
  saved : ∀ t th, s.threads[t]? = some th → (∀ c, (s.cores c).executing ≠ some t) →
    th.ctx = s.last t
  regs : ∀ c t, (s.cores c).executing = some t → (s.cores c).regs = s.last t

section

variable {s s' : Sys} {a : Act} {c d t : ℕ}

theorem Core.holds_of_executing {cpu : Core} (hp : cpu.Placed) (h : cpu.executing = some t) :
    cpu.Holds t := by
  unfold Core.executing at h
  unfold Core.Placed at hp
  refine ⟨fun hoff => ?_, ?_⟩
  · rw [hoff] at h
    cases h
  · cases hplace : cpu.place with
    | off => rw [hplace] at h; cases h
    | running => rw [hplace] at h; cases h; exact .inl rfl
    | saving prev next => rw [hplace] at h hp; cases h; exact .inr hp.1
    | restoring prev next => rw [hplace] at h; cases h
    | finishing => rw [hplace] at h; cases h; exact .inl rfl

/-- No two cores have the same thread claimed. -/
theorem Claims.holds_unique (h : Claims s) (hc : (s.cores c).Holds t) (hd : (s.cores d).Holds t) :
    c = d := by
  obtain ⟨th, hth, hon, -⟩ := h.held c t hc
  obtain ⟨th', hth', hon', -⟩ := h.held d t hd
  cases hth.symm.trans hth'
  exact Option.some.inj (hon.symm.trans hon')

theorem Claims.holds_of_executing (h : Claims s) (hc : (s.cores c).executing = some t) :
    (s.cores c).Holds t :=
  Core.holds_of_executing (h.placed c) hc

/-- A claimed thread is in the table. -/
theorem Claims.lt_of_holds (h : Claims s) (hc : (s.cores c).Holds t) : t < s.threads.length := by
  obtain ⟨th, hth, -⟩ := h.held c t hc
  exact (List.getElem?_eq_some_iff.mp hth).1

/-- A pinned thread that a core has claimed is the idle thread of that core. -/
theorem Claims.eq_idle (h : Claims s) (hc : (s.cores c).Holds t) {th : Thread} {p : ℕ}
    (hth : s.threads[t]? = some th) (hp : th.affinity = some p) :
    p = c ∧ t = (s.cores c).idle := by
  obtain ⟨th', hth', hon, -⟩ := h.held c t hc
  cases hth.symm.trans hth'
  obtain ⟨-, hidle, -, honly⟩ := h.pinned t th p hth hp
  cases honly c hon
  exact ⟨rfl, hidle⟩

/-- The idle thread of a core that runs another one is free. -/
theorem Claims.idle_free (h : Claims s) (hplace : (s.cores c).place = .running)
    (hne : (s.cores c).idle ≠ (s.cores c).current) :
    ∃ th, s.threads[(s.cores c).idle]? = some th ∧ th.affinity = some c ∧ th.onCpu = none ∧
      th.state = .runnable := by
  obtain ⟨th, hth, haff⟩ := h.idle c (by simp [hplace])
  obtain ⟨-, -, hstate, honly⟩ := h.pinned _ th c hth haff
  refine ⟨th, hth, haff, ?_, hstate⟩
  cases hon : th.onCpu with
  | none => rfl
  | some d =>
    obtain rfl := honly d hon
    have hprev := h.placed d
    unfold Core.Placed at hprev
    rw [hplace] at hprev
    rcases (h.owner _ th d hth hon).2 with hcur | hrel
    · exact absurd hcur hne
    · rw [hprev] at hrel
      cases hrel

/-- What `pick_next` chooses is runnable, and free unless it is the current thread. -/
theorem Claims.pickNext (h : Claims s) (hplace : (s.cores c).place = .running) :
    ∃ th, s.threads[pickNext s.threads c (s.cores c)]? = some th ∧ th.state = .runnable ∧
      (pickNext s.threads c (s.cores c) ≠ (s.cores c).current →
        th.onCpu = none ∧ ∀ p, th.affinity = some p → p = c) := by
  rcases pickNext_cases s.threads c (s.cores c) with
    ⟨-, -, th, hth, hstate, hon, haff⟩ | ⟨hcur, th, hth, hstate⟩ | hidle
  · exact ⟨th, hth, hstate, fun _ => ⟨hon, haff⟩⟩
  · exact ⟨th, hcur ▸ hth, hstate, fun hne => absurd hcur hne⟩
  · by_cases hne : (s.cores c).idle = (s.cores c).current
    · obtain ⟨th, hth, haff⟩ := h.idle c (by simp [hplace])
      exact ⟨th, hidle ▸ hth, (h.pinned _ th c hth haff).2.2.1, fun hn => absurd (hidle.trans hne) hn⟩
    · obtain ⟨th, hth, haff, hon, hstate⟩ := h.idle_free hplace hne
      exact ⟨th, hidle ▸ hth, hstate, fun _ => ⟨hon, fun p hp => Option.some.inj (hp.symm.trans haff)⟩⟩

/-! ## Steps that claim and release nothing -/

/-- A thread stays with its core, and one that is pinned stays runnable. -/
structure Thread.Keeps (th th' : Thread) : Prop where
  onCpu : th'.onCpu = th.onCpu
  affinity : th'.affinity = th.affinity
  new : th'.state = .new → th.state = .new
  pinned : ∀ p, th.affinity = some p → th.state = .runnable → th'.state = .runnable

theorem Thread.Keeps.refl (th : Thread) : th.Keeps th := ⟨rfl, rfl, id, fun _ _ => id⟩

/-- A core has the same claims at another place. -/
structure Core.Keeps (cpu cpu' : Core) : Prop where
  current : cpu'.current = cpu.current
  idle : cpu'.idle = cpu.idle
  releasePrev : cpu'.releasePrev = cpu.releasePrev
  off : cpu'.place = .off ↔ cpu.place = .off
  placed : cpu.Placed → cpu'.Placed

theorem Core.Keeps.refl (cpu : Core) : cpu.Keeps cpu := ⟨rfl, rfl, rfl, .rfl, id⟩

theorem Core.Keeps.holds {cpu cpu' : Core} (h : cpu.Keeps cpu') : cpu'.Holds t ↔ cpu.Holds t := by
  unfold Core.Holds
  rw [h.current, h.releasePrev, ne_eq, h.off]

theorem Claims.keep (h : Claims s) {g : ℕ → Thread → Thread}
    (hget : ∀ t, s'.threads[t]? = (s.threads[t]?).map (g t))
    (hkeep : ∀ (t : ℕ) (th : Thread), s.threads[t]? = some th → th.Keeps (g t th))
    (hcores : ∀ c, (s.cores c).Keeps (s'.cores c)) : Claims s' := by
  have hfrom : ∀ {t : ℕ} {th' : Thread}, s'.threads[t]? = some th' →
      ∃ th, s.threads[t]? = some th ∧ th.Keeps th' := by
    intro t th' hth'
    rw [hget] at hth'
    obtain ⟨th, hth, rfl⟩ := Option.map_eq_some_iff.mp hth'
    exact ⟨th, hth, hkeep t th hth⟩
  have hto : ∀ {t : ℕ} {th : Thread}, s.threads[t]? = some th →
      ∃ th', s'.threads[t]? = some th' ∧ th.Keeps th' := by
    intro t th hth
    exact ⟨g t th, by rw [hget, hth]; rfl, hkeep t th hth⟩
  refine ⟨fun t th' c hth' hon => ?_, fun c t hc => ?_, fun t th' p hth' hp => ?_, fun c hc => ?_,
    fun c => (hcores c).placed (h.placed c)⟩
  · obtain ⟨th, hth, hk⟩ := hfrom hth'
    exact (hcores c).holds.mpr (h.owner t th c hth (hk.onCpu ▸ hon))
  · obtain ⟨th, hth, hon, hstate⟩ := h.held c t ((hcores c).holds.mp hc)
    obtain ⟨th', hth', hk⟩ := hto hth
    exact ⟨th', hth', hk.onCpu.trans hon, fun hn => hstate (hk.new hn)⟩
  · obtain ⟨th, hth, hk⟩ := hfrom hth'
    obtain ⟨hoff, hidle, hstate, honly⟩ := h.pinned t th p hth (hk.affinity ▸ hp)
    exact ⟨fun ho => hoff ((hcores p).off.mp ho), hidle.trans (hcores p).idle.symm, hk.pinned p (hk.affinity ▸ hp) hstate,
      fun c hon => honly c (hk.onCpu ▸ hon)⟩
  · obtain ⟨th, hth, haff⟩ := h.idle c fun hoff => hc ((hcores c).off.mpr hoff)
    obtain ⟨th', hth', hk⟩ := hto hth
    exact ⟨th', (hcores c).idle ▸ hth', hk.affinity.trans haff⟩

/-- Cores execute the same threads with the same registers, and no context changes. -/
theorem Saved.keep (h : Saved s) {g : ℕ → Thread → Thread}
    (hget : ∀ t, s'.threads[t]? = (s.threads[t]?).map (g t))
    (hctx : ∀ t th, (g t th).ctx = th.ctx)
    (hexec : ∀ c, (s'.cores c).executing = (s.cores c).executing)
    (hregs : ∀ c, (s'.cores c).regs = (s.cores c).regs) (hlast : s'.last = s.last) : Saved s' := by
  refine ⟨fun t th' hth' hno => ?_, fun c t hc => ?_⟩
  · rw [hget] at hth'
    obtain ⟨th, hth, rfl⟩ := Option.map_eq_some_iff.mp hth'
    rw [hctx, hlast]
    exact h.saved t th hth fun c => hexec c ▸ hno c
  · rw [hregs, hlast]
    exact h.regs c t (hexec c ▸ hc)

/-- What holds of the changed core and of every unchanged one holds of all. -/
theorem forall_setCore {P : ℕ → Core → Prop} {cpu : Core} (hc : P c cpu)
    (hd : ∀ d, d ≠ c → P d (s.cores d)) : ∀ d, P d ((s.setCore c cpu).cores d) := by
  intro d
  by_cases h : d = c
  · subst h
    simpa only [Sys.setCore, Function.update_self] using hc
  · simpa only [Sys.setCore, Function.update_of_ne h] using hd d h

theorem restate_get (s : Sys) (f : ℕ → State → State) (t : ℕ) :
    (s.restate f).threads[t]? = (s.threads[t]?).map fun th => { th with state := f t th.state } := by
  rw [Sys.restate, List.getElem?_mapIdx]

/-- A change of states that leaves pinned threads runnable. -/
theorem Claims.restate (h : Claims s) {f : ℕ → State → State}
    (hnew : ∀ i st, f i st = .new → st = .new)
    (hpin : ∀ t th p, s.threads[t]? = some th → th.affinity = some p → f t .runnable = .runnable) :
    Claims (s.restate f) := by
  refine h.keep (restate_get s f) (fun t th hth => ⟨rfl, rfl, hnew t _, fun p hp hst => ?_⟩)
    fun c => .refl _
  rw [hst]
  exact hpin t th p hth hp

theorem Saved.restate (h : Saved s) (f : ℕ → State → State) : Saved (s.restate f) :=
  h.keep (restate_get s f) (fun _ _ => rfl) (fun _ => rfl) (fun _ => rfl) rfl

/-- The current thread leaves the run queue; it is not an idle thread. -/
theorem Claims.withCurrent (h : Claims s) (hmay : s.mayLeave c = true) {f : State → State}
    (hnew : ∀ st, f st = .new → st = .new) : Claims (s.withCurrent c f) := by
  simp only [Sys.mayLeave, Bool.and_eq_true, decide_eq_true_eq, bne_iff_ne] at hmay
  obtain ⟨⟨hplace, hne⟩, -⟩ := hmay
  refine h.restate (fun i st => ?_) fun t th p hth hp => if_neg ?_
  · split_ifs
    · exact hnew st
    · exact id
  · rintro rfl
    exact hne (h.eq_idle ⟨by simp [hplace], .inl rfl⟩ hth hp).2

/-! ## New threads -/

theorem append_get {l : List Thread} {th x : Thread} (h : (l ++ [th])[t]? = some x) :
    t < l.length ∧ l[t]? = some x ∨ t = l.length ∧ x = th := by
  rw [List.getElem?_append] at h
  split_ifs at h with hlt
  · exact .inl ⟨hlt, h⟩
  · obtain ⟨h0, hx⟩ := List.getElem?_eq_some_iff.mp h
    simp only [List.length_singleton] at h0
    refine .inr ⟨by omega, ?_⟩
    rw [← hx]
    simp

theorem append_get_old {l : List Thread} {th x : Thread} (h : l[t]? = some x) :
    (l ++ [th])[t]? = some x := by
  obtain ⟨hlt, -⟩ := List.getElem?_eq_some_iff.mp h
  rw [List.getElem?_append_left hlt, h]

/-- A thread that nobody has claimed and that is not pinned joins the table. -/
theorem Claims.push (h : Claims s) {th : Thread} {regs : Context} (hon : th.onCpu = none)
    (haff : th.affinity = none) : Claims (s.push th regs) := by
  refine ⟨fun t x c hx hxon => ?_, fun c t hc => ?_, fun t x p hx hp => ?_, fun c hc => ?_, h.placed⟩
  · rcases append_get hx with ⟨-, hx⟩ | ⟨-, rfl⟩
    · exact h.owner t x c hx hxon
    · rw [hon] at hxon
      cases hxon
  · obtain ⟨x, hx, hxon, hstate⟩ := h.held c t hc
    exact ⟨x, append_get_old hx, hxon, hstate⟩
  · rcases append_get hx with ⟨-, hx⟩ | ⟨-, rfl⟩
    · exact h.pinned t x p hx hp
    · rw [haff] at hp
      cases hp
  · obtain ⟨x, hx, hxaff⟩ := h.idle c hc
    exact ⟨x, append_get_old hx, hxaff⟩

theorem Saved.push (h : Saved s) (hclaims : Claims s) {th : Thread} :
    Saved (s.push th th.ctx) := by
  refine ⟨fun t x hx hno => ?_, fun c t hc => ?_⟩
  · rcases append_get hx with ⟨hlt, hx⟩ | ⟨rfl, rfl⟩
    · exact (h.saved t x hx hno).trans (Function.update_of_ne (Nat.ne_of_lt hlt) _ _).symm
    · exact (Function.update_self s.threads.length x.ctx s.last).symm
  · have hlt := hclaims.lt_of_holds (hclaims.holds_of_executing hc)
    exact (h.regs c t hc).trans (Function.update_of_ne (Nat.ne_of_lt hlt) _ _).symm

/-- The core and its boot context become the core's idle thread. -/
theorem Claims.adopt (h : Claims s) (hoff : (s.cores c).place = .off) {th : Thread} {regs : Context}
    {cpu : Core} (hon : th.onCpu = some c) (haff : th.affinity = some c)
    (hstate : th.state = .runnable) (hplace : cpu.place = .running) (hrel : cpu.releasePrev = none)
    (hcur : cpu.current = s.threads.length) (hidle : cpu.idle = s.threads.length) :
    Claims ((s.push th regs).setCore c cpu) := by
  have hnew : (s.push th regs).threads[s.threads.length]? = some th := List.getElem?_concat_length
  -- the core had no thread before
  have hc : ∀ t, ¬(s.cores c).Holds t := fun t ht => ht.1 hoff
  have hcpu : ∀ t, cpu.Holds t → t = s.threads.length := by
    rintro t ⟨-, ht | ht⟩
    · exact ht.trans hcur
    · rw [hrel] at ht
      cases ht
  refine ⟨fun t x d hx hxon => ?_, ?_, fun t x p hx hp => ?_, ?_, ?_⟩
  · rcases append_get hx with ⟨-, hx⟩ | ⟨rfl, rfl⟩
    · have hd := h.owner t x d hx hxon
      have hne : d ≠ c := by
        rintro rfl
        exact hc t hd
      simpa only [Sys.setCore, Sys.push, Function.update_of_ne hne] using hd
    · cases hon.symm.trans hxon
      simp only [Sys.setCore, Function.update_self]
      exact ⟨by simp [hplace], .inl hcur.symm⟩
  · refine forall_setCore (P := fun d core => ∀ t, core.Holds t → ∃ x : Thread,
      (s.push th regs).threads[t]? = some x ∧ x.onCpu = some d ∧ x.state ≠ .new)
      (fun t ht => ?_) fun d hd t ht => ?_
    · rw [hcpu t ht]
      exact ⟨th, hnew, hon, by simp [hstate]⟩
    · obtain ⟨x, hx, hxon, hxstate⟩ := h.held d t ht
      exact ⟨x, append_get_old hx, hxon, hxstate⟩
  · rcases append_get hx with ⟨-, hx⟩ | ⟨rfl, rfl⟩
    · obtain ⟨hpoff, hidle', hxstate, honly⟩ := h.pinned t x p hx hp
      have hne : p ≠ c := by
        rintro rfl
        exact hpoff hoff
      simp only [Sys.setCore, Function.update_of_ne hne]
      exact ⟨hpoff, hidle', hxstate, honly⟩
    · cases haff.symm.trans hp
      simp only [Sys.setCore, Function.update_self]
      exact ⟨by simp [hplace], hidle.symm, hstate, fun d hd => Option.some.inj (hd.symm.trans hon)⟩
  · refine forall_setCore (P := fun d core => core.place ≠ .off → ∃ x : Thread,
      (s.push th regs).threads[core.idle]? = some x ∧ x.affinity = some d)
      (fun _ => ⟨th, hidle ▸ hnew, haff⟩) fun d hd hon => ?_
    obtain ⟨x, hx, hxaff⟩ := h.idle d hon
    exact ⟨x, append_get_old hx, hxaff⟩
  · refine forall_setCore (P := fun _ core => core.Placed) ?_ fun d _ => h.placed d
    rw [Core.Placed, hplace]
    exact hrel

theorem Saved.adopt (h : Saved s) (hclaims : Claims s) (hoff : (s.cores c).place = .off)
    {th : Thread} {cpu : Core} (hplace : cpu.place = .running) (hcur : cpu.current = s.threads.length)
    (hregs : cpu.regs = (s.cores c).regs) :
    Saved ((s.push th (s.cores c).regs).setCore c cpu) := by
  have hexec : cpu.executing = some s.threads.length := by
    rw [Core.executing, hplace, hcur]
  have hc : (s.cores c).executing = none := by rw [Core.executing, hoff]
  refine ⟨fun t x hx hno => ?_, ?_⟩
  · rcases append_get hx with ⟨hlt, hx⟩ | ⟨rfl, rfl⟩
    · refine (h.saved t x hx fun d hd => ?_).trans (Function.update_of_ne (Nat.ne_of_lt hlt) _ _).symm
      have hne : d ≠ c := by
        rintro rfl
        rw [hc] at hd
        cases hd
      refine hno d ?_
      simpa only [Sys.setCore, Sys.push, Function.update_of_ne hne] using hd
    · refine absurd ?_ (hno c)
      simpa only [Sys.setCore, Function.update_self] using hexec
  · refine forall_setCore (P := fun _ core => ∀ t, core.executing = some t → core.regs =
      Function.update s.last s.threads.length (s.cores c).regs t) (fun t ht => ?_) fun d _ t ht => ?_
    · cases hexec.symm.trans ht
      rw [Function.update_self, hregs]
    · have hlt := hclaims.lt_of_holds (hclaims.holds_of_executing ht)
      exact (h.regs d t ht).trans (Function.update_of_ne (Nat.ne_of_lt hlt) _ _).symm

/-! ## The switch -/

theorem modify_get (l : List Thread) (i : ℕ) (f : Thread → Thread) (t : ℕ) :
    (l.modify i f)[t]? = (l[t]?).map fun th => if i = t then f th else th := by
  rw [List.getElem?_modify]
  rfl

/-- The core claims the thread that it has chosen, and keeps the current one claimed. -/
theorem Claims.schedule (h : Claims s) (hplace : (s.cores c).place = .running) {next : ℕ}
    {x : Thread} (hx : s.threads[next]? = some x) (hne : next ≠ (s.cores c).current)
    (hfree : x.onCpu = none) (hpin : ∀ p, x.affinity = some p → p = c) (hstate : x.state = .runnable)
    {f : Thread → Thread} (hon : (f x).onCpu = some c) (haff : (f x).affinity = x.affinity)
    (hfstate : (f x).state = x.state) {cpu : Core}
    (hrel : cpu.releasePrev = some (s.cores c).current) (hcur : cpu.current = next)
    (hidle : cpu.idle = (s.cores c).idle) (hcpu : cpu.place = .saving (s.cores c).current next) :
    Claims (Sys.setCore { s with threads := s.threads.modify next f } c cpu) := by
  have hget := modify_get s.threads next f
  have hother : ∀ t, t ≠ next → (s.threads.modify next f)[t]? = s.threads[t]? := by
    intro t ht
    rw [hget]
    cases s.threads[t]? with
    | none => rfl
    | some y => simp [Ne.symm ht]
  have hnext : (s.threads.modify next f)[next]? = some (f x) := by
    rw [hget, hx]
    simp
  have hrun : (s.cores c).Holds (s.cores c).current := ⟨by simp [hplace], .inl rfl⟩
  have hprev : (s.cores c).releasePrev = none := by
    have := h.placed c
    rwa [Core.Placed, hplace] at this
  -- nobody has claimed the chosen thread yet
  have hunheld : ∀ d, ¬(s.cores d).Holds next := by
    intro d hd
    obtain ⟨y, hy, hyon, -⟩ := h.held d next hd
    cases hx.symm.trans hy
    rw [hfree] at hyon
    cases hyon
  refine ⟨fun t y d hy hyon => ?_, ?_, fun t y p hy hp => ?_, ?_, ?_⟩
  · by_cases ht : t = next
    · subst ht
      cases hnext.symm.trans hy
      cases hon.symm.trans hyon
      simp only [Sys.setCore, Function.update_self]
      exact ⟨by simp [hcpu], .inl hcur.symm⟩
    · have hd := h.owner t y d ((hother t ht).symm.trans hy) hyon
      by_cases hdc : d = c
      · subst hdc
        simp only [Sys.setCore, Function.update_self]
        refine ⟨by simp [hcpu], .inr (hrel.trans ?_)⟩
        rcases hd.2 with hd | hd
        · rw [hd]
        · rw [hprev] at hd
          cases hd
      · simpa only [Sys.setCore, Function.update_of_ne hdc] using hd
  · refine forall_setCore (P := fun d core => ∀ t, core.Holds t → ∃ y : Thread,
      (s.threads.modify next f)[t]? = some y ∧ y.onCpu = some d ∧ y.state ≠ .new)
      (fun t ht => ?_) fun d hd t ht => ?_
    · rcases ht.2 with ht | ht
      · rw [ht, hcur]
        exact ⟨_, hnext, hon, by simp [hfstate, hstate]⟩
      · cases hrel.symm.trans ht
        obtain ⟨y, hy, hyon, hystate⟩ := h.held c _ hrun
        exact ⟨y, (hother _ (Ne.symm hne)).trans hy, hyon, hystate⟩
    · obtain ⟨y, hy, hyon, hystate⟩ := h.held d t ht
      have htn : t ≠ next := by
        rintro rfl
        exact hunheld d ht
      exact ⟨y, (hother t htn).trans hy, hyon, hystate⟩
  · have hcore : ∀ q, ((Sys.setCore { s with threads := s.threads.modify next f } c cpu).cores q).idle =
        (s.cores q).idle ∧ ((s.cores q).place ≠ .off →
          ((Sys.setCore { s with threads := s.threads.modify next f } c cpu).cores q).place ≠ .off) :=
      forall_setCore (P := fun q core => core.idle = (s.cores q).idle ∧
        ((s.cores q).place ≠ .off → core.place ≠ .off)) ⟨hidle, fun _ => by simp [hcpu]⟩
        fun q _ => ⟨rfl, id⟩
    obtain ⟨hidle', hoff'⟩ := hcore p
    by_cases ht : t = next
    · subst ht
      cases hnext.symm.trans hy
      rw [haff] at hp
      obtain ⟨hoff, hti, hst, -⟩ := h.pinned t x p hx hp
      refine ⟨hoff' hoff, hti.trans hidle'.symm, hfstate.trans hst, fun d hd => ?_⟩
      exact (Option.some.inj (hd.symm.trans hon)).trans (hpin p hp).symm
    · obtain ⟨hoff, hti, hst, honly⟩ := h.pinned t y p ((hother t ht).symm.trans hy) hp
      exact ⟨hoff' hoff, hti.trans hidle'.symm, hst, honly⟩
  · have hkeep : ∀ (d i : ℕ), (∃ y : Thread, s.threads[i]? = some y ∧ y.affinity = some d) →
        ∃ y : Thread, (s.threads.modify next f)[i]? = some y ∧ y.affinity = some d := by
      rintro d i ⟨y, hy, hyaff⟩
      by_cases hi : i = next
      · subst hi
        cases hx.symm.trans hy
        exact ⟨_, hnext, haff.trans hyaff⟩
      · exact ⟨y, (hother i hi).trans hy, hyaff⟩
    refine forall_setCore (P := fun d core => core.place ≠ .off → ∃ y : Thread,
      (s.threads.modify next f)[core.idle]? = some y ∧ y.affinity = some d)
      (fun _ => ?_) fun d _ hd => hkeep d _ (h.idle d hd)
    rw [hidle]
    exact hkeep c _ (h.idle c (by simp [hplace]))
  · refine forall_setCore (P := fun _ core => core.Placed) ?_ fun d _ => h.placed d
    rw [Core.Placed, hcpu]
    exact ⟨hrel, hcur, Ne.symm hne⟩

/-- The thread that the core switched away from is free again. -/
theorem Claims.finish (h : Claims s) (hplace : (s.cores c).place = .finishing) {prev : ℕ}
    (hrel : (s.cores c).releasePrev = some prev) {cpu : Core} (hcur : cpu.current = (s.cores c).current)
    (hidle : cpu.idle = (s.cores c).idle) (hcrel : cpu.releasePrev = none)
    (hcpu : cpu.place = .running) :
    Claims (Sys.setCore { s with
      threads := s.threads.modify prev fun t => { t with onCpu := none } } c cpu) := by
  have hget := modify_get s.threads prev fun t => { t with onCpu := none }
  have hprevHeld : (s.cores c).Holds prev := ⟨by simp [hplace], .inr hrel⟩
  have hne : prev ≠ (s.cores c).current := by
    obtain ⟨p, hp, hpne⟩ : ∃ p, (s.cores c).releasePrev = some p ∧ p ≠ (s.cores c).current := by
      have hplaced := h.placed c
      rwa [Core.Placed, hplace] at hplaced
    rw [hrel] at hp
    cases hp
    exact hpne
  have hfrom : ∀ {t : ℕ} {y : Thread}, (s.threads.modify prev fun t => { t with onCpu := none })[t]? =
      some y → ∃ x, s.threads[t]? = some x ∧ y.affinity = x.affinity ∧ y.state = x.state ∧
        (t = prev ∧ y.onCpu = none ∨ t ≠ prev ∧ y.onCpu = x.onCpu) := by
    intro t y hy
    rw [hget] at hy
    obtain ⟨x, hx, rfl⟩ := Option.map_eq_some_iff.mp hy
    by_cases ht : prev = t
    · exact ⟨x, hx, by simp [ht], by simp [ht], .inl ⟨ht.symm, by simp [ht]⟩⟩
    · exact ⟨x, hx, by simp [ht], by simp [ht], .inr ⟨Ne.symm ht, by simp [ht]⟩⟩
  have hto : ∀ {t : ℕ} {x : Thread}, s.threads[t]? = some x →
      ∃ y, (s.threads.modify prev fun t => { t with onCpu := none })[t]? = some y ∧
        y.affinity = x.affinity ∧ y.state = x.state ∧ (t ≠ prev → y.onCpu = x.onCpu) := by
    intro t x hx
    refine ⟨_, (hget t).trans (by rw [hx]; rfl), ?_⟩
    by_cases ht : prev = t
    · exact ⟨by simp [ht], by simp [ht], fun hn => absurd ht.symm hn⟩
    · exact ⟨by simp [ht], by simp [ht], fun _ => by simp [ht]⟩
  have hcore : ∀ q, ((s.setCore c cpu).cores q).idle = (s.cores q).idle ∧
      ((s.cores q).place ≠ .off → ((s.setCore c cpu).cores q).place ≠ .off) :=
    forall_setCore (P := fun q core => core.idle = (s.cores q).idle ∧
      ((s.cores q).place ≠ .off → core.place ≠ .off)) ⟨hidle, fun _ => by simp [hcpu]⟩
      fun q _ => ⟨rfl, id⟩
  refine ⟨fun t y d hy hyon => ?_, ?_, fun t y p hy hp => ?_, ?_, ?_⟩
  · obtain ⟨x, hx, -, -, ⟨-, hnone⟩ | ⟨ht, hon⟩⟩ := hfrom hy
    · rw [hnone] at hyon
      cases hyon
    · have hd := h.owner t x d hx (hon ▸ hyon)
      by_cases hdc : d = c
      · subst hdc
        simp only [Sys.setCore, Function.update_self]
        refine ⟨by simp [hcpu], .inl ?_⟩
        rcases hd.2 with hd | hd
        · exact hd.trans hcur.symm
        · rw [hrel] at hd
          exact absurd (Option.some.inj hd).symm ht
      · simpa only [Sys.setCore, Function.update_of_ne hdc] using hd
  · refine forall_setCore (P := fun d core => ∀ t, core.Holds t → ∃ y : Thread,
      (s.threads.modify prev fun t => { t with onCpu := none })[t]? = some y ∧ y.onCpu = some d ∧
        y.state ≠ .new) (fun t ht => ?_) fun d hd t ht => ?_
    · have htc : t = (s.cores c).current := by
        rcases ht.2 with ht | ht
        · exact ht.trans hcur
        · rw [hcrel] at ht
          cases ht
      subst htc
      obtain ⟨x, hx, hon, hst⟩ := h.held c _ ⟨by simp [hplace], .inl rfl⟩
      obtain ⟨y, hy, -, hyst, hyon⟩ := hto hx
      exact ⟨y, hy, (hyon (Ne.symm hne)).trans hon, by rwa [hyst]⟩
    · obtain ⟨x, hx, hon, hst⟩ := h.held d t ht
      obtain ⟨y, hy, -, hyst, hyon⟩ := hto hx
      have htp : t ≠ prev := by
        rintro rfl
        exact hd (h.holds_unique ht hprevHeld)
      exact ⟨y, hy, (hyon htp).trans hon, by rwa [hyst]⟩
  · obtain ⟨x, hx, haff, hst, hon⟩ := hfrom hy
    obtain ⟨hoff, hti, hxst, honly⟩ := h.pinned t x p hx (haff ▸ hp)
    refine ⟨(hcore p).2 hoff, hti.trans (hcore p).1.symm, hst.trans hxst, fun d hd => ?_⟩
    rcases hon with ⟨-, hon⟩ | ⟨-, hon⟩
    · rw [hon] at hd
      cases hd
    · exact honly d (hon ▸ hd)
  · intro d hd
    have hoff : (s.cores d).place ≠ .off := by
      by_cases hdc : d = c
      · rw [hdc, hplace]
        simp
      · simpa only [Sys.setCore, Function.update_of_ne hdc] using hd
    obtain ⟨x, hx, haff⟩ := h.idle d hoff
    obtain ⟨y, hy, hyaff, -⟩ := hto hx
    exact ⟨y, (hcore d).1 ▸ hy, hyaff.trans haff⟩
  · refine forall_setCore (P := fun _ core => core.Placed) ?_ fun d _ => h.placed d
    rw [Core.Placed, hcpu]
    exact hcrel

/-- The registers of the thread that a core runs change, and are the ones it runs with. -/
theorem Saved.compute (h : Saved s) (hclaims : Claims s) (hplace : (s.cores c).place = .running)
    (regs : Context) : Saved { s.setCore c { s.cores c with regs := regs } with
      last := Function.update s.last (s.cores c).current regs } := by
  have hexec : (s.cores c).executing = some (s.cores c).current := by rw [Core.executing, hplace]
  have hsame : ∀ d, ((s.setCore c { s.cores c with regs := regs }).cores d).executing =
      (s.cores d).executing :=
    forall_setCore (P := fun d core => core.executing = (s.cores d).executing) rfl fun _ _ => rfl
  refine ⟨fun t x hx hno => ?_, ?_⟩
  · have hne : t ≠ (s.cores c).current := by
      rintro rfl
      exact hno c ((hsame c).trans hexec)
    exact (h.saved t x hx fun d hd => hno d ((hsame d).trans hd)).trans
      (Function.update_of_ne hne _ _).symm
  · refine forall_setCore (P := fun _ core => ∀ t, core.executing = some t → core.regs =
      Function.update s.last (s.cores c).current regs t) (fun t ht => ?_) fun d hd t ht => ?_
    · have ht' : some (s.cores c).current = some t := hexec.symm.trans ht
      cases ht'
      rw [Function.update_self]
    · have hne : t ≠ (s.cores c).current := by
        rintro rfl
        exact hd (hclaims.holds_unique (hclaims.holds_of_executing ht)
          (hclaims.holds_of_executing hexec))
      rw [Function.update_of_ne hne]
      exact h.regs d t ht

/-- The registers of the thread that the core leaves are saved. -/
theorem Saved.save (h : Saved s) {prev next : ℕ} (hplace : (s.cores c).place = .saving prev next)
    {cpu : Core} (hcpu : cpu.place = .restoring prev next) :
    Saved (Sys.setCore { s with
      threads := s.threads.modify prev fun t => { t with ctx := (s.cores c).regs } } c cpu) := by
  have hexec : (s.cores c).executing = some prev := by rw [Core.executing, hplace]
  have hnone : cpu.executing = none := by rw [Core.executing, hcpu]
  refine ⟨fun t x hx hno => ?_, ?_⟩
  · obtain ⟨y, hy, rfl⟩ := Option.map_eq_some_iff.mp ((modify_get _ _ _ _).symm.trans hx)
    by_cases ht : prev = t
    · subst ht
      exact (congrArg Thread.ctx (if_pos rfl)).trans (h.regs c prev hexec)
    · refine (congrArg Thread.ctx (if_neg ht)).trans (h.saved t y hy fun d hd => ?_)
      have hdc : d ≠ c := by
        rintro rfl
        exact ht (Option.some.inj (hexec.symm.trans hd))
      exact hno d (by simpa only [Sys.setCore, Function.update_of_ne hdc] using hd)
  · refine forall_setCore (P := fun _ core => ∀ t, core.executing = some t → core.regs = s.last t)
      (fun t ht => ?_) fun d _ => h.regs d
    rw [hnone] at ht
    cases ht

/-- The chosen thread goes on with the registers with which it last ran. -/
theorem Saved.restore (h : Saved s) (hclaims : Claims s) {prev next : ℕ}
    (hplace : (s.cores c).place = .restoring prev next) {x : Thread} (hx : s.threads[next]? = some x)
    {cpu : Core} (hcpu : cpu.place = .finishing) (hcur : cpu.current = next)
    (hregs : cpu.regs = x.ctx) : Saved (s.setCore c cpu) := by
  have hnone : (s.cores c).executing = none := by rw [Core.executing, hplace]
  have hexec : cpu.executing = some next := by rw [Core.executing, hcpu, hcur]
  -- the core has claimed the thread, so nobody executes it
  have hfree : ∀ d, (s.cores d).executing ≠ some next := by
    intro d hd
    have hclaimed : (s.cores c).Holds next := by
      have hplaced := hclaims.placed c
      rw [Core.Placed, hplace] at hplaced
      exact ⟨by simp [hplace], .inl hplaced.2.1.symm⟩
    obtain rfl := hclaims.holds_unique (hclaims.holds_of_executing hd) hclaimed
    rw [hnone] at hd
    cases hd
  refine ⟨fun t y hy hno => h.saved t y hy fun d hd => ?_, ?_⟩
  · have hdc : d ≠ c := by
      rintro rfl
      rw [hnone] at hd
      cases hd
    exact hno d (by simpa only [Sys.setCore, Function.update_of_ne hdc] using hd)
  · refine forall_setCore (P := fun _ core => ∀ t, core.executing = some t → core.regs = s.last t)
      (fun t ht => ?_) fun d _ => h.regs d
    cases hexec.symm.trans ht
    exact hregs.trans (h.saved next x hx hfree)

/-! ## Every step -/

theorem map_same (l : List Thread) (t : ℕ) : l[t]? = (l[t]?).map fun th => th := by
  rw [Option.map_id']

/-- Another place of a core with the same claims. -/
theorem Claims.setCore (h : Claims s) {cpu : Core} (hcpu : (s.cores c).Keeps cpu) :
    Claims (s.setCore c cpu) :=
  h.keep (g := fun _ th => th) (map_same _) (fun _ th _ => .refl th)
    (forall_setCore (P := fun d core => (s.cores d).Keeps core) hcpu fun _ _ => .refl _)

/-- The thread that the core restores next. -/
theorem Claims.restoring (h : Claims s) {prev next : ℕ}
    (hplace : (s.cores c).place = .restoring prev next) :
    (s.cores c).Holds next ∧ (s.cores c).releasePrev = some prev ∧ (s.cores c).current = next ∧
      prev ≠ next := by
  have hplaced := h.placed c
  rw [Core.Placed, hplace] at hplaced
  exact ⟨⟨by simp [hplace], .inl hplaced.2.1.symm⟩, hplaced⟩

theorem Claims.finishing (h : Claims s) (hplace : (s.cores c).place = .finishing) :
    ∃ prev, (s.cores c).releasePrev = some prev ∧ prev ≠ (s.cores c).current := by
  have hplaced := h.placed c
  rwa [Core.Placed, hplace] at hplaced

theorem Claims.did (h : Claims s) (hd : Sys.Did s s') : Claims s' := by
  cases hd with
  | stay => exact h
  | adopt ttbr0 hoff => exact h.adopt hoff rfl rfl rfl rfl rfl rfl rfl
  | push hon haff => exact h.push hon haff
  | restate hnew hrun =>
    refine h.restate hnew fun t th p hth hp => ?_
    rcases hrun t with heq | ⟨d, hplace, hcur, hne⟩
    · exact heq
    · exact absurd (h.eq_idle ⟨by simp [hplace], .inl hcur⟩ hth hp).2 hne
  | attach tid ttbr0 =>
    refine h.keep (modify_get _ _ _) (fun t th _ => ?_) fun d => .refl _
    split_ifs
    · exact ⟨rfl, rfl, id, fun _ _ => id⟩
    · exact .refl th
  | @compute c regs _ =>
    refine h.keep (g := fun _ th => th) (map_same _) (fun _ th _ => .refl th) ?_
    exact forall_setCore (P := fun d core => (s.cores d).Keeps core) ⟨rfl, rfl, rfl, .rfl, id⟩
      fun d _ => .refl _
  | claim hplace hne =>
    obtain ⟨x, hx, hstate, hfree⟩ := h.pickNext hplace
    obtain ⟨hon, hpin⟩ := hfree hne
    exact h.schedule hplace hx hne hon hpin hstate rfl rfl rfl rfl rfl rfl rfl
  | save hplace =>
    refine h.keep (modify_get _ _ _) (fun t th _ => ?_) ?_
    · split_ifs
      · exact ⟨rfl, rfl, id, fun _ _ => id⟩
      · exact .refl th
    · refine forall_setCore (P := fun d core => (s.cores d).Keeps core) ?_ fun d _ => .refl _
      refine ⟨rfl, rfl, rfl, by simp [hplace], fun hp => ?_⟩
      rwa [Core.Placed, hplace] at hp
  | @restore c prev next hplace =>
    refine h.setCore ⟨rfl, rfl, rfl, by simp [hplace], fun _ => ?_⟩
    obtain ⟨-, hrel, hcur, hne⟩ := h.restoring hplace
    exact ⟨prev, hrel, hcur ▸ hne⟩
  | finishSwitch hplace =>
    obtain ⟨prev, hrel, -⟩ := h.finishing hplace
    simp only [Sys.finishSwitch, hrel]
    exact h.finish hplace hrel rfl rfl rfl rfl

theorem Saved.did (h : Saved s) (hclaims : Claims s) (hd : Sys.Did s s') : Saved s' := by
  cases hd with
  | stay => exact h
  | adopt ttbr0 hoff => exact h.adopt hclaims hoff rfl rfl rfl
  | push _ _ => exact h.push hclaims
  | restate _ _ => exact h.restate _
  | attach tid ttbr0 =>
    refine h.keep (modify_get _ _ _) (fun t th => ?_) (fun _ => rfl) (fun _ => rfl) rfl
    split_ifs <;> rfl
  | compute regs hplace => exact h.compute hclaims hplace regs
  | claim hplace _ =>
    -- the core goes on executing the thread that it leaves
    refine h.keep (modify_get _ _ _) (fun t th => ?_) ?_ ?_ rfl
    · split_ifs <;> rfl
    · refine forall_setCore (P := fun d core => core.executing = (s.cores d).executing) ?_
        fun _ _ => rfl
      rw [Core.executing, Core.executing, hplace]
    · exact forall_setCore (P := fun d core => core.regs = (s.cores d).regs) rfl fun _ _ => rfl
  | save hplace => exact h.save hplace rfl
  | restore hplace =>
    obtain ⟨hholds, -, hcur, -⟩ := hclaims.restoring hplace
    obtain ⟨x, hx, -⟩ := hclaims.held _ _ hholds
    exact h.restore hclaims hplace hx rfl hcur (by rw [hx]; rfl)
  | finishSwitch hplace =>
    obtain ⟨prev, hrel, -⟩ := hclaims.finishing hplace
    simp only [Sys.finishSwitch, hrel]
    refine h.keep (modify_get _ _ _) (fun t th => ?_) ?_ ?_ rfl
    · split_ifs <;> rfl
    · refine forall_setCore (P := fun d core => core.executing = (s.cores d).executing) ?_
        fun _ _ => rfl
      rw [Core.executing, Core.executing, hplace]
    · exact forall_setCore (P := fun d core => core.regs = (s.cores d).regs) rfl fun _ _ => rfl

end

/-! ## Runs -/

/-- `init` (lines 132–159) and `spawn_pinned`: the boot context runs as thread 0 on core 0,
whose idle thread is thread 1. The other cores have not been adopted yet. -/
def Sys.init (cores : ℕ → Core) (trampoline entry stackTop ttbr0 : UInt64) : Sys :=
  let ctx := Context.new trampoline entry 0 stackTop
  { threads := [⟨Context.empty, .runnable, 1, some 0, none, 1, ttbr0⟩,
      ⟨ctx, .runnable, 0, none, some 0, 0, ttbr0⟩]
    cores := fun c =>
      if c = 0 then { cores c with current := 0, idle := 1, releasePrev := none, place := .running }
      else { cores c with releasePrev := none, place := .off }
    last := fun t => if t = 0 then (cores 0).regs else ctx }

def Init (s : Sys) : Prop :=
  ∃ cores trampoline entry stackTop ttbr0, s = Sys.init cores trampoline entry stackTop ttbr0

theorem init_get {cores : ℕ → Core} {trampoline entry stackTop ttbr0 : UInt64} {t : ℕ} {x : Thread}
    (h : (Sys.init cores trampoline entry stackTop ttbr0).threads[t]? = some x) :
    t = 0 ∧ x = ⟨Context.empty, .runnable, 1, some 0, none, 1, ttbr0⟩ ∨
    t = 1 ∧ x = ⟨Context.new trampoline entry 0 stackTop, .runnable, 0, none, some 0, 0, ttbr0⟩ := by
  match t with
  | 0 => exact .inl ⟨rfl, (Option.some.inj h).symm⟩
  | 1 => exact .inr ⟨rfl, (Option.some.inj h).symm⟩
  | t + 2 => cases h

theorem init_off {cores : ℕ → Core} {trampoline entry stackTop ttbr0 : UInt64} {c : ℕ}
    (h : ((Sys.init cores trampoline entry stackTop ttbr0).cores c).place ≠ .off) : c = 0 := by
  by_contra hc
  simp [Sys.init, hc] at h

theorem claims_init {s : Sys} (h : Init s) : Claims s := by
  obtain ⟨cores, trampoline, entry, stackTop, ttbr0, rfl⟩ := h
  refine ⟨fun t x c hx hon => ?_, fun c t hc => ?_, fun t x p hx hp => ?_, fun c hc => ?_, fun c => ?_⟩
  · rcases init_get hx with ⟨rfl, rfl⟩ | ⟨rfl, rfl⟩
    · cases hon
      exact ⟨by simp [Sys.init], .inl rfl⟩
    · cases hon
  · obtain rfl := init_off hc.1
    rcases hc.2 with rfl | hrel
    · exact ⟨_, rfl, rfl, nofun⟩
    · cases hrel
  · rcases init_get hx with ⟨rfl, rfl⟩ | ⟨rfl, rfl⟩
    · cases hp
    · cases hp
      exact ⟨by simp [Sys.init], rfl, rfl, nofun⟩
  · obtain rfl := init_off hc
    exact ⟨_, rfl, rfl⟩
  · by_cases hc : c = 0
    · subst hc
      rfl
    · simp [Core.Placed, Sys.init, hc]

theorem saved_init {s : Sys} (h : Init s) : Saved s := by
  obtain ⟨cores, trampoline, entry, stackTop, ttbr0, rfl⟩ := h
  refine ⟨fun t x hx hno => ?_, fun c t hc => ?_⟩
  · rcases init_get hx with ⟨rfl, rfl⟩ | ⟨rfl, rfl⟩
    · exact absurd rfl (hno 0)
    · rfl
  · by_cases h0 : c = 0
    · subst h0
      cases hc
      rfl
    · simp [Core.executing, Sys.init, h0] at hc

/-- Threads run one core at a time. -/
structure Exclusive (s : Sys) : Prop where
  /-- no thread is run by two cores -/
  once : ∀ c d t, (s.cores c).executing = some t → (s.cores d).executing = some t → c = d
  /-- a context is restored after it was saved: no core still executes the thread, and the
  context is what the thread last ran with -/
  saved : ∀ c prev next, (s.cores c).place = .restoring prev next →
    (∀ d, (s.cores d).executing ≠ some next) ∧
    ∃ th, s.threads[next]? = some th ∧ th.ctx = s.last next
  /-- a pinned thread runs on its core only -/
  pinned : ∀ c t th p, (s.cores c).executing = some t → s.threads[t]? = some th →
    th.affinity = some p → c = p
  /-- an idle thread runs on its core only -/
  idle : ∀ c d, (s.cores c).place ≠ .off → (s.cores d).executing = some (s.cores c).idle → d = c
  /-- the chosen thread is runnable -/
  chosen : ∀ c, (s.cores c).place = .running →
    ∃ th, s.threads[pickNext s.threads c (s.cores c)]? = some th ∧ th.state = .runnable
  /-- no thread runs before it was started -/
  started : ∀ c t, (s.cores c).executing = some t →
    ∃ th, s.threads[t]? = some th ∧ th.state ≠ .new

theorem exclusive {s : Sys} (hclaims : Claims s) (hsaved : Saved s) : Exclusive s := by
  have hpinned : ∀ c t th p, (s.cores c).executing = some t → s.threads[t]? = some th →
      th.affinity = some p → c = p := fun c t th p hc hth hp =>
    (hclaims.eq_idle (hclaims.holds_of_executing hc) hth hp).1.symm
  refine ⟨fun c d t hc hd => ?_, fun c prev next hplace => ?_, hpinned, fun c d hon hd => ?_,
    fun c hplace => ?_, fun c t hc => ?_⟩
  · exact hclaims.holds_unique (hclaims.holds_of_executing hc) (hclaims.holds_of_executing hd)
  · obtain ⟨hholds, -⟩ := hclaims.restoring hplace
    have hfree : ∀ d, (s.cores d).executing ≠ some next := by
      intro d hd
      obtain rfl := hclaims.holds_unique (hclaims.holds_of_executing hd) hholds
      rw [Core.executing, hplace] at hd
      cases hd
    obtain ⟨th, hth, -⟩ := hclaims.held c next hholds
    exact ⟨hfree, th, hth, hsaved.saved next th hth hfree⟩
  · obtain ⟨th, hth, haff⟩ := hclaims.idle c hon
    exact hpinned d _ th c hd hth haff
  · obtain ⟨th, hth, hstate, -⟩ := hclaims.pickNext hplace
    exact ⟨th, hth, hstate⟩
  · obtain ⟨th, hth, -, hstate⟩ := hclaims.held c t (hclaims.holds_of_executing hc)
    exact ⟨th, hth, hstate⟩

/-- In every reachable state no thread is run by two cores, a context is restored only after
it was saved, idle threads run on their own cores, and only runnable threads are chosen. -/
theorem threads_run_once {s : Sys} (h : Run.Reachable Sys.step Run.always Init s) :
    Exclusive s := by
  have hinv : Claims s ∧ Saved s :=
    h.invariant (fun s => Claims s ∧ Saved s) (fun s hs => ⟨claims_init hs, saved_init hs⟩)
      fun s a s' ⟨hclaims, hsaved⟩ _ hs =>
        ⟨hclaims.did (Sys.step_did hs), hsaved.did hclaims (Sys.step_did hs)⟩
  exact exclusive hinv.1 hinv.2

/-- Core 0 spawns and starts thread 2, and core 1 is adopted with idle thread 3. Core 0 then
goes to sleep and switches to its idle thread, while core 1 takes thread 2. -/
def twoCores : List Act :=
  [.spawn 0 0x1000 0x2000 7 0x9000 0x400, .start 0 2, .adopt 1 0x400, .sleep 0 50, .schedule 1,
    .schedule 0, .save 1, .save 0]

def twoCoresState : Sys :=
  let core : Core := ⟨0, 0, 0, 0, none, Context.empty, 0, .off⟩
  (Run.exec Sys.step (Sys.init (fun _ => core) 0x1000 0x3000 0x8000 0x400) twoCores).getD
    (Sys.init (fun _ => core) 0x1000 0x3000 0x8000 0x400)

theorem threads_run_once_twoCoresState :
    (twoCoresState.cores 0).place = .restoring 0 1 ∧ (twoCoresState.cores 1).place = .restoring 3 2 ∧
      Exclusive twoCoresState := by
  have hrun : Run.exec Sys.step
      (Sys.init (fun _ => ⟨0, 0, 0, 0, none, Context.empty, 0, .off⟩) 0x1000 0x3000 0x8000 0x400)
      twoCores = some twoCoresState := rfl
  exact ⟨rfl, rfl, threads_run_once (Run.reachable_of_exec ⟨_, _, _, _, _, rfl⟩ hrun)⟩

end JungeyOs.Sched
