import JungeyOs.Sched.Switch
import JungeyOs.Vectors

/-!
# Threads under exceptions

The threads of the kernel on any number of cores, at the level of registers and memory: each thread
has a stack, on which the frames of the exceptions that it is in the middle of lie, and a `Context`,
in which its registers are while it does not run. Exceptions are taken at any time, also while another
one is handled; threads are switched while exceptions are handled, on any core. What the code of the
kernel does between these is anything that leaves alone the frames that lie on stacks and the contexts
of threads that do not run.

Results:
* `intact_step`: a step leaves the frames and contexts of all other threads intact.
* `resumes`: an exception that is left gives back what was interrupted, and a thread that is switched
  to goes on with the registers with which it was left.
-/

namespace JungeyOs.Sched

open A64 Vectors

/-- Where the stack and the `Context` of each thread are. -/
structure Layout (T : Type) where
  stack : T → Word
  size : T → ℕ
  ctx : T → Word

/-- No two of these ranges overlap. -/
structure Layout.Separate {T : Type} (L : Layout T) : Prop where
  ofStacks : ∀ t u, t ≠ u → A64.Disjoint (L.stack t) (L.size t) (L.stack u) (L.size u)
  ofContexts : ∀ t u, t ≠ u → A64.Disjoint (L.ctx t) CONTEXT_SIZE (L.ctx u) CONTEXT_SIZE
  ofBoth : ∀ t u, A64.Disjoint (L.ctx t) CONTEXT_SIZE (L.stack u) (L.size u)

/-- A range lies within another one. -/
def Within (base : Word) (n : ℕ) (base' : Word) (n' : ℕ) : Prop :=
  ∀ b, Outside base' n' b → Outside base n b

/-- The memories have the same bytes in a range. -/
def Agree (base : Word) (n : ℕ) (mem mem' : Mem) : Prop := ∀ b, ¬Outside base n b → mem b = mem' b

/-- `current` is the thread that a core runs. `suspended` has the exceptions that a thread is in the
middle of, the innermost first, with the frames that they will be left with; `saved` has the registers
with which a thread was left or is to begin. -/
structure Kernel (T : Type) where
  cores : ℕ → A64.State
  mem : Mem
  current : ℕ → Option T
  suspended : T → List (Word × TrapFrame)
  saved : T → Option Context

namespace Kernel

variable {T : Type}

/-- A core with the memory that all cores share. -/
def view (k : Kernel T) (c : ℕ) : A64.State := { k.cores c with mem := k.mem }

/-- A core has made steps. -/
def put (k : Kernel T) (c : ℕ) (s : A64.State) : Kernel T :=
  { k with cores := Function.update k.cores c s, mem := s.mem }

/-- The thread is not on any core. -/
def Off (k : Kernel T) (t : T) : Prop := ∀ c, k.current c ≠ some t

end Kernel

section

variable {T : Type}

/-- The frames lie on the stacks of their threads, apart from each other, and they and the contexts of
the threads that do not run are what they were left as. -/
structure Intact (L : Layout T) (k : Kernel T) : Prop where
  frames : ∀ t, ∀ p ∈ k.suspended t, frameAt k.mem p.1 = p.2
  within : ∀ t, ∀ p ∈ k.suspended t, Within p.1 FRAME_SIZE.toNat (L.stack t) (L.size t)
  apart : ∀ t, (k.suspended t).Pairwise fun p q =>
    A64.Disjoint p.1 FRAME_SIZE.toNat q.1 FRAME_SIZE.toNat
  contexts : ∀ t ctx, k.saved t = some ctx → k.Off t → contextAt k.mem (L.ctx t) = ctx

variable {L : Layout T} {k : Kernel T}

/-- A range with which the changed range has no byte in common is unchanged. -/
theorem agree_of_disjoint {base base' : Word} {n n' : ℕ} {mem mem' : Mem}
    (h : A64.Disjoint base n base' n') (hmem : ∀ b, Outside base n b → mem' b = mem b) :
    Agree base' n' mem mem' := fun b hb => (hmem b ((h b).resolve_right hb)).symm

theorem disjoint_within {base base' a a' : Word} {n n' m m' : ℕ} (h : A64.Disjoint a m a' m')
    (hw : Within base n a m) (hw' : Within base' n' a' m') : A64.Disjoint base n base' n' :=
  fun b => (h b).imp (hw b) (hw' b)

theorem disjoint_symm {base base' : Word} {n n' : ℕ} (h : A64.Disjoint base n base' n') :
    A64.Disjoint base' n' base n := fun b => (h b).symm

theorem within_refl (base : Word) (n : ℕ) : Within base n base n := fun _ => id

/-- A change of one frame on the stack of thread `t` touches no frame of another thread. -/
theorem Intact.agree_other (hL : L.Separate) (h : Intact L k) {t u : T} (hu : u ≠ t) {base : Word}
    (hbase : Within base FRAME_SIZE.toNat (L.stack t) (L.size t)) {mem : Mem}
    (hmem : ∀ b, Outside base FRAME_SIZE.toNat b → mem b = k.mem b) {p : Word × TrapFrame}
    (hp : p ∈ k.suspended u) : Agree p.1 FRAME_SIZE.toNat k.mem mem :=
  agree_of_disjoint (disjoint_within (hL.ofStacks t u hu.symm) hbase (h.within u p hp)) hmem

/-- A change of one frame touches no context. -/
theorem agree_context (hL : L.Separate) {t u : T} {base : Word}
    (hbase : Within base FRAME_SIZE.toNat (L.stack t) (L.size t)) {mem : Mem}
    (hmem : ∀ b, Outside base FRAME_SIZE.toNat b → mem b = k.mem b) :
    Agree (L.ctx u) CONTEXT_SIZE k.mem mem :=
  agree_of_disjoint (disjoint_within (disjoint_symm (hL.ofBoth u t)) hbase (within_refl _ _)) hmem

/-- A change of one context touches no frame. -/
theorem Intact.agree_frame (hL : L.Separate) (h : Intact L k) {t u : T} {mem : Mem}
    (hmem : ∀ b, Outside (L.ctx t) CONTEXT_SIZE b → mem b = k.mem b) {p : Word × TrapFrame}
    (hp : p ∈ k.suspended u) : Agree p.1 FRAME_SIZE.toNat k.mem mem :=
  agree_of_disjoint (disjoint_within (hL.ofBoth t u) (within_refl _ _) (h.within u p hp)) hmem

/-- Nothing has been interrupted or left. -/
structure Fresh (k : Kernel T) : Prop where
  suspended : ∀ t, k.suspended t = []
  saved : ∀ t, k.saved t = none

theorem Fresh.intact (h : Fresh k) : Intact L k where
  frames t p hp := by rw [h.suspended t] at hp; cases hp
  within t p hp := by rw [h.suspended t] at hp; cases hp
  apart t := by rw [h.suspended t]; exact .nil
  contexts t ctx ht := by rw [h.saved t] at ht; cases ht

end

section

variable {T : Type} [DecidableEq T]

/-- A core has entered or left an exception of thread `t`. -/
def Kernel.framed (k : Kernel T) (c : ℕ) (s : A64.State) (t : T) (frames : List (Word × TrapFrame)) :
    Kernel T :=
  { k.put c s with suspended := Function.update k.suspended t frames }

/-- A core has switched from thread `t` to thread `u`. -/
def Kernel.switched (k : Kernel T) (c : ℕ) (s : A64.State) (t u : T) : Kernel T :=
  { k.put c s with
    current := Function.update k.current c (some u)
    saved := Function.update k.saved t (some (contextOf (k.view c))) }

/-- Where the frame of an exception goes. -/
def Kernel.frameBase (k : Kernel T) (c : ℕ) : Word := (k.cores c).sp 1 - FRAME_SIZE

/-- A step of core `c`; `ret` is where `rust_exception` returns to. -/
inductive Step (L : Layout T) (ret : Word) (k : Kernel T) : Kernel T → Prop
  /-- the code of a thread -/
  | work {c : ℕ} {t : T} {s : A64.State} : k.current c = some t →
      (∀ u, ∀ p ∈ k.suspended u, Agree p.1 FRAME_SIZE.toNat k.mem s.mem) →
      (∀ u ctx, k.saved u = some ctx → k.Off u → Agree (L.ctx u) CONTEXT_SIZE k.mem s.mem) →
      Step L ret k (k.put c s)
  /-- an exception, up to `rust_exception`; there is room for its frame on the thread's stack -/
  | trap {c : ℕ} {t : T} {offset esr far idx : Word} {s : A64.State} : k.current c = some t →
      Within (k.frameBase c) FRAME_SIZE.toNat (L.stack t) (L.size t) →
      (∀ p ∈ k.suspended t, A64.Disjoint (k.frameBase c) FRAME_SIZE.toNat p.1 FRAME_SIZE.toNat) →
      Entered ((k.view c).takeException offset esr far) idx ret s →
      Step L ret k (k.framed c s t
        ((k.frameBase c, frameOf ((k.view c).takeException offset esr far)) :: k.suspended t))
  /-- the handler changes its frame, as a system call does to return a result -/
  | answer {c : ℕ} {t : T} {base : Word} {f f' : TrapFrame} {rest : List (Word × TrapFrame)} {mem : Mem} :
      k.current c = some t → k.suspended t = (base, f) :: rest → frameAt mem base = f' →
      (∀ b, Outside base FRAME_SIZE.toNat b → mem b = k.mem b) →
      Step L ret k
        { k with mem := mem, suspended := Function.update k.suspended t ((base, f') :: rest) }
  /-- the innermost exception of the thread is left, by the frame that is found in memory -/
  | leave {c : ℕ} {t : T} {base : Word} {f : TrapFrame} {rest : List (Word × TrapFrame)} {s : A64.State} :
      k.current c = some t → k.suspended t = (base, f) :: rest → (k.cores c).sp 1 = base →
      Left (frameAt k.mem base) (k.view c) s →
      Step L ret k (k.framed c s t rest)
  /-- a new thread -/
  | spawn {c : ℕ} {t u : T} {ctx : Context} {mem : Mem} : k.current c = some t → k.saved u = none →
      k.Off u → contextAt mem (L.ctx u) = ctx →
      (∀ b, Outside (L.ctx u) CONTEXT_SIZE b → mem b = k.mem b) →
      Step L ret k { k with mem := mem, saved := Function.update k.saved u (some ctx) }
  /-- `cpu_switch_to`, from thread `t` to thread `u` -/
  | switch {c : ℕ} {t u : T} {ctx : Context} {s : A64.State} : k.current c = some t →
      k.saved u = some ctx → k.Off u → (k.cores c).x 0 = L.ctx t → (k.cores c).x 1 = L.ctx u →
      Switched (k.view c) s → Step L ret k (k.switched c s t u)

variable {L : Layout T} {ret : Word} {k k' : Kernel T}

/-- The frames of thread `t` change, in one frame on its stack. -/
theorem Intact.frame (hL : L.Separate) (h : Intact L k) {t : T} {base : Word} {mem : Mem}
    {cores : ℕ → A64.State} {frames : List (Word × TrapFrame)}
    (hbase : Within base FRAME_SIZE.toNat (L.stack t) (L.size t))
    (hmem : ∀ b, Outside base FRAME_SIZE.toNat b → mem b = k.mem b)
    (hframes : ∀ p ∈ frames, frameAt mem p.1 = p.2)
    (hwithin : ∀ p ∈ frames, Within p.1 FRAME_SIZE.toNat (L.stack t) (L.size t))
    (hapart : frames.Pairwise fun p q => A64.Disjoint p.1 FRAME_SIZE.toNat q.1 FRAME_SIZE.toNat) :
    Intact L ⟨cores, mem, k.current, Function.update k.suspended t frames, k.saved⟩ := by
  refine ⟨fun u p hp => ?_, fun u p hp => ?_, fun u => ?_, fun u ctx hu hoff => ?_⟩
  · by_cases hut : u = t
    · subst hut
      exact hframes p (by simpa using hp)
    · simp only [Function.update_of_ne hut] at hp
      rw [← h.frames u p hp]
      exact (frameAt_congr (h.agree_other hL hut hbase hmem hp)).symm
  · by_cases hut : u = t
    · subst hut
      exact hwithin p (by simpa using hp)
    · simp only [Function.update_of_ne hut] at hp
      exact h.within u p hp
  · by_cases hut : u = t
    · subst hut
      simpa using hapart
    · simpa only [Function.update_of_ne hut] using h.apart u
  · rw [← h.contexts u ctx hu hoff]
    exact (contextAt_congr (agree_context hL hbase hmem)).symm

/-- Every step leaves the frames and the contexts of all other threads intact. -/
theorem intact_step (hL : L.Separate) (h : Intact L k) (hstep : Step L ret k k') : Intact L k' := by
  cases hstep with
  | work _ hframes hcontexts =>
    refine ⟨fun u p hp => ?_, h.within, h.apart, fun u ctx hu hoff => ?_⟩
    · rw [← h.frames u p hp]
      exact (frameAt_congr (hframes u p hp)).symm
    · rw [← h.contexts u ctx hu hoff]
      exact (contextAt_congr (hcontexts u ctx hu hoff)).symm
  | @trap c t offset esr far idx s _ hwithin hapart hentered =>
    have hmem : ∀ b, Outside (k.frameBase c) FRAME_SIZE.toNat b → s.mem b = k.mem b := hentered.mem
    refine h.frame hL hwithin hmem (fun p hp => ?_) (fun p hp => ?_) ?_
    · rcases List.mem_cons.mp hp with rfl | hp
      · exact hentered.frame
      · rw [← h.frames t p hp]
        exact (frameAt_congr (agree_of_disjoint (hapart p hp) hmem)).symm
    · rcases List.mem_cons.mp hp with rfl | hp
      · exact hwithin
      · exact h.within t p hp
    · exact List.pairwise_cons.mpr ⟨hapart, h.apart t⟩
  | @answer c t base f f' rest mem _ hsusp hframe hmem =>
    have hold := h.within t
    have happ := h.apart t
    rw [hsusp] at hold happ
    obtain ⟨hhead, htail⟩ := List.pairwise_cons.mp happ
    refine h.frame hL (hold (base, f) List.mem_cons_self) hmem (fun p hp => ?_) (fun p hp => ?_) ?_
    · rcases List.mem_cons.mp hp with rfl | hp
      · exact hframe
      · rw [← h.frames t p (hsusp ▸ List.mem_cons_of_mem _ hp)]
        exact (frameAt_congr (agree_of_disjoint (hhead p hp) hmem)).symm
    · rcases List.mem_cons.mp hp with rfl | hp
      · exact hold (base, f) List.mem_cons_self
      · exact hold p (List.mem_cons_of_mem _ hp)
    · exact List.pairwise_cons.mpr ⟨hhead, htail⟩
  | @leave c t base f rest s _ hsusp _ hleft =>
    have hmem : s.mem = k.mem := hleft.mem
    have hold := h.within t
    have happ := h.apart t
    rw [hsusp] at hold happ
    refine h.frame hL (hold (base, f) List.mem_cons_self) (fun b _ => congrFun hmem b)
      (fun p hp => ?_) (fun p hp => hold p (List.mem_cons_of_mem _ hp)) (List.pairwise_cons.mp happ).2
    change frameAt s.mem p.1 = p.2
    rw [hmem]
    exact h.frames t p (hsusp ▸ List.mem_cons_of_mem _ hp)
  | @spawn c t u ctx mem _ hnone hoff hctx hmem =>
    refine ⟨fun v p hp => ?_, h.within, h.apart, fun v ctx' hv hvoff => ?_⟩
    · rw [← h.frames v p hp]
      exact (frameAt_congr (h.agree_frame hL hmem hp)).symm
    · by_cases hvu : v = u
      · subst hvu
        simp only [Function.update_self, Option.some.injEq] at hv
        exact hv ▸ hctx
      · simp only [Function.update_of_ne hvu] at hv
        rw [← h.contexts v ctx' hv hvoff]
        exact (contextAt_congr (agree_of_disjoint (hL.ofContexts u v (Ne.symm hvu)) hmem)).symm
  | @switch c t u ctx s hcur hsaved hoff hx0 hx1 hswitched =>
    have hmem : ∀ b, Outside (L.ctx t) CONTEXT_SIZE b → s.mem b = k.mem b := hx0 ▸ hswitched.mem
    refine ⟨fun v p hp => ?_, h.within, h.apart, fun v ctx' hv hvoff => ?_⟩
    · rw [← h.frames v p hp]
      exact (frameAt_congr (h.agree_frame hL hmem hp)).symm
    · by_cases hvt : v = t
      · subst hvt
        simp only [Kernel.switched, Function.update_self, Option.some.injEq] at hv
        rw [← hv, ← hx0]
        exact hswitched.prev
      · simp only [Kernel.switched, Function.update_of_ne hvt] at hv
        have hne : ∀ d, k.current d ≠ some v := by
          intro d hd
          by_cases hdc : d = c
          · subst hdc
            exact hvt (Option.some.inj (hd.symm.trans hcur))
          · exact hvoff d (by simpa [Kernel.switched, Function.update_of_ne hdc] using hd)
        rw [← h.contexts v ctx' hv hne]
        exact (contextAt_congr (agree_of_disjoint (hL.ofContexts t v (Ne.symm hvt)) hmem)).symm

theorem intact_run (hL : L.Separate) (h : Fresh k)
    (hrun : Relation.ReflTransGen (Step L ret) k k') : Intact L k' := by
  induction hrun with
  | refl => exact h.intact
  | tail _ hstep ih => exact intact_step hL ih hstep

/-- The code of `vectors.s` and of `cpu_switch_to` is in its place. -/
structure Image (code : Code) (vectors common rustException switchTo : Word) : Prop where
  loaded : Loaded code vectors common rustException
  switchTo : At code switchTo cpuSwitchTo

variable {code : Code} {vectors common rustException switchTo : Word}

/-- In every state that is reached, the code does what the steps say, so that every exception gives
back what it interrupted, and every thread goes on with the registers that it was left with, whatever
other threads and cores have done in between. -/
theorem resumes (himage : Image code vectors common rustException switchTo) (hL : L.Separate)
    {k₀ : Kernel T} (h₀ : Fresh k₀)
    (hrun : Relation.ReflTransGen (Step L (skip common 5)) k₀ k) {c : ℕ} {t : T}
    (hcurrent : k.current c = some t) :
    (∀ (idx : Fin 16) (esr far : Word), (k.cores c).sys .vbarEl1 = vectors →
      Within (k.frameBase c) FRAME_SIZE.toNat (L.stack t) (L.size t) →
      (∀ p ∈ k.suspended t, A64.Disjoint (k.frameBase c) FRAME_SIZE.toNat p.1 FRAME_SIZE.toNat) →
      ∃ s, Steps code 0 ((k.view c).takeException (BitVec.ofNat 64 (0x80 * idx.val)) esr far) s ∧
        s.pc = rustException ∧
        Step L (skip common 5) k (k.framed c s t ((k.frameBase c,
          ⟨(k.cores c).x, (k.cores c).pc, (k.cores c).pstate, (k.cores c).sp 0⟩) :: k.suspended t))) ∧
    (∀ base f rest, k.suspended t = (base, f) :: rest → (k.cores c).bank = 1 →
      (k.cores c).sp 1 = base → (k.cores c).pc = skip common 5 →
      ∃ s, Steps code 0 (k.view c) s ∧ Left f (k.view c) s ∧
        Step L (skip common 5) k (k.framed c s t rest)) ∧
    (∀ u ctx, k.saved u = some ctx → k.Off u → (k.cores c).bank = 1 → (k.cores c).pc = switchTo →
      (k.cores c).x 0 = L.ctx t → (k.cores c).x 1 = L.ctx u →
      ∃ s, Steps code 0 (k.view c) s ∧ contextOf s = ctx ∧ (⟨s.pc⟩ : UInt64) = ctx.x30 ∧
        Step L (skip common 5) k (k.switched c s t u)) := by
  have hintact := intact_run hL h₀ hrun
  refine ⟨fun idx esr far hvbar hwithin hapart => ?_, fun base f rest hsusp hbank hsp hpc => ?_,
    fun u ctx hsaved hoff hbank hpc hx0 hx1 => ?_⟩
  · have hat : ((k.view c).takeException (BitVec.ofNat 64 (0x80 * idx.val)) esr far).pc =
        vectors + BitVec.ofNat 64 (0x80 * idx.val) := congrArg (· + _) hvbar
    have hbank : ((k.view c).takeException (BitVec.ofNat 64 (0x80 * idx.val)) esr far).bank = 1 :=
      bankOf_taken _
    obtain ⟨s, hsteps, hs, hentered⟩ := enter himage.loaded idx hbank hat
    have hstep := Step.trap hcurrent hwithin hapart hentered
    rw [frameOf_takeException] at hstep
    exact ⟨s, hsteps, hs, hstep⟩
  · obtain ⟨s, hsteps, hleft⟩ := leave (s := k.view c) himage.loaded hbank hpc
    have hleft' : Left (frameAt k.mem base) (k.view c) s := hsp ▸ hleft
    have hframe : frameAt k.mem base = f := by
      refine hintact.frames t (base, f) ?_
      rw [hsusp]
      exact List.mem_cons_self
    exact ⟨s, hsteps, hframe ▸ hleft', .leave hcurrent hsusp hsp hleft'⟩
  · have hne : t ≠ u := fun h => hoff c (h ▸ hcurrent)
    have hapart : A64.Disjoint ((k.view c).x 0) CONTEXT_SIZE ((k.view c).x 1) CONTEXT_SIZE := by
      change A64.Disjoint ((k.cores c).x 0) CONTEXT_SIZE ((k.cores c).x 1) CONTEXT_SIZE
      rw [hx0, hx1]
      exact hL.ofContexts t u hne
    obtain ⟨s, hsteps, hswitched⟩ := cpu_switch_to (s := k.view c) himage.switchTo hbank hpc hapart
    have hctx : contextAt k.mem ((k.cores c).x 1) = ctx := hx1 ▸ hintact.contexts u ctx hsaved hoff
    exact ⟨s, hsteps, hswitched.next.trans hctx,
      hswitched.pc.trans (congrArg Context.x30 hctx), .switch hcurrent hsaved hoff hx0 hx1 hswitched⟩

end

/-- The code at addresses that leave room for it. -/
def smallCode : Code :=
  link ((List.finRange 16).map (fun idx => (0x1000 + BitVec.ofNat 64 (0x80 * idx.val),
    ventry (BitVec.ofNat 64 idx.val) 0x2000)) ++
    [(0x2000, exceptionCommon 0x3000), (0x4000, cpuSwitchTo)])

theorem image_smallCode : Image smallCode 0x1000 0x2000 0x3000 0x4000 where
  loaded := {
    vector := fun idx => at_link (by decide) (Nat.lt_of_le_of_lt (length_ventry _ _) (by decide))
      (List.mem_append_left _ (List.mem_map.mpr ⟨idx, List.mem_finRange idx, rfl⟩))
    common := at_link (by decide) (by decide)
      (List.mem_append_right _ List.mem_cons_self) }
  switchTo := at_link (by decide) (by decide)
    (List.mem_append_right _ (List.mem_cons_of_mem _ List.mem_cons_self))

/-- One thread. -/
def smallLayout : Layout Unit := ⟨fun _ => 0x8000, fun _ => 0x1000, fun _ => 0x6000⟩

/-- The thread runs on core 0, at user level. -/
def smallKernel : Kernel Unit where
  cores _ := ⟨fun i => i.val, fun _ => 0x9000, fun _ => 0x1000, 0, 0x400000, fun _ => 0⟩
  mem _ := 0
  current c := if c = 0 then some () else none
  suspended _ := []
  saved _ := none

/-- The thread is interrupted, and goes on where it was. -/
theorem resumes_interrupted :
    ∃ (k : Kernel Unit) (s : A64.State),
      Relation.ReflTransGen (Step smallLayout (skip 0x2000 5)) smallKernel k ∧
      Steps smallCode 0 (k.view 0) s ∧
      s.x = (smallKernel.cores 0).x ∧ s.pc = 0x400000 ∧ s.pstate = 0 ∧ s.sp 1 = 0x9000 := by
  have hL : smallLayout.Separate := by
    refine ⟨fun t u h => absurd rfl h, fun t u h => absurd rfl h, fun t u b => ?_⟩
    simp only [Outside, smallLayout, CONTEXT_SIZE, BitVec.toNat_sub]
    have hb := b.isLt
    have h6 : (0x6000 : Word).toNat = 0x6000 := rfl
    have h8 : (0x8000 : Word).toNat = 0x8000 := rfl
    omega
  have hfresh : Fresh smallKernel := ⟨fun _ => rfl, fun _ => rfl⟩
  have hwithin : Within (smallKernel.frameBase 0) FRAME_SIZE.toNat 0x8000 0x1000 := by
    intro b hb
    have hbase : (smallKernel.frameBase 0).toNat = 0x8EE0 := rfl
    have hsize : FRAME_SIZE.toNat = 288 := rfl
    have h8 : (0x8000 : Word).toNat = 0x8000 := rfl
    simp only [Outside, BitVec.toNat_sub, hbase, hsize] at hb ⊢
    omega
  obtain ⟨s, -, -, htrap⟩ := (resumes image_smallCode hL hfresh .refl (c := 0) (t := ()) rfl).1 9 0 0 rfl
    hwithin (fun p hp => by cases hp)
  have hbank : bankOf 0x3C5 = 1 := by decide
  -- the handler returns
  have hrun := (Relation.ReflTransGen.single htrap).tail (.work (c := 0) (t := ())
    (s := { s with sp := fun _ => smallKernel.frameBase 0, pstate := 0x3C5, pc := skip 0x2000 5 })
    rfl (fun _ _ _ _ _ => rfl) (fun _ _ hu => by cases hu))
  obtain ⟨s', hsteps, hleft, -⟩ := (resumes image_smallCode hL hfresh hrun (c := 0) (t := ()) rfl).2.1
    _ _ _ rfl hbank rfl rfl
  exact ⟨_, s', hrun, hsteps, hleft.x, hleft.pc, hleft.pstate, hleft.sp ▸ rfl⟩

end JungeyOs.Sched
