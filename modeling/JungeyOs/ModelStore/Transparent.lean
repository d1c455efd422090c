import JungeyOs.ModelStore.View

/-!
# What `reclaim` changes for the processes

Results:
* `Solid.undisturbed`, `solid_step`: without `reclaim` every step finds the pages that it uses.
* `reclaim_unseen`: a run with calls of `reclaim` is answered as one without them in which the processes
  do the same, where each of its steps finds the pages that it uses.
* `copy_refused`: a copy that does not find its page.
-/

namespace JungeyOs.ModelStore

open Mm

section

variable {s s' : Sys} {i : Kept} {k : ℕ} {p : Pc} {q : PageId} {disk : Disk}

/-! ## Runs without `reclaim` -/

/-- A frame that a thread is about to map or to read is still with its page. -/
def Pc.Backed (s : Sys) : Pc → Prop
  | .copyPiece _ leaf => ∀ q, leaf.tag = some q →
      s.store.pageAt q.id q.index = some (.resident leaf.frame)
  | .mapping c frame => s.store.pageAt c.id c.index = some (.resident frame)
  | _ => True

/-- The processes have every page that they have had. -/
structure Solid (s : Sys) (i : Kept) : Prop where
  pages : ∀ pid page, (i.pages pid page).isSome → (s.spaces pid page).isSome
  backed : ∀ k, (s.pc k).Backed s

/-- Then every step finds the pages that it uses. -/
theorem Solid.undisturbed (h : Solid s i) (a : Act) : s.Undisturbed i a := by
  unfold Sys.Undisturbed
  cases a with
  | load k pid va =>
    intro hentry
    refine .inl ?_
    unfold Sys.entry at hentry
    unfold Kept.entry
    split_ifs at hentry ⊢
    · refine Option.not_isSome_iff_eq_none.mp fun hsome => ?_
      have hspace := h.pages pid (pageOf va) hsome
      rw [hentry] at hspace
      cases hspace
    · rfl
  | run k io room =>
    have hbacked := h.backed k
    dsimp only
    cases hpc : s.pc k with
    | copyFrom c => exact fun _ => h.pages _ _
    | copyTo c => exact fun _ => h.pages _ _
    | copyPiece c leaf =>
      rw [hpc] at hbacked
      exact hbacked
    | mapping c frame =>
      rw [hpc] at hbacked
      exact hbacked
    | _ => trivial
  | _ => trivial

theorem Pc.Backed.kept (h : p.Backed s) (hresident : ∀ (q : PageId) f,
      s.store.pageAt q.id q.index = some (.resident f) →
      s'.store.pageAt q.id q.index = some (.resident f)) : p.Backed s' := by
  cases p with
  | copyPiece c leaf => exact fun q htag => hresident q leaf.frame (h q htag)
  | mapping c frame => exact hresident c.toPageId frame h
  | _ => trivial

/-- A thread goes where it relies on no frame. -/
theorem update_backed (pc : ℕ → Pc) (hp : ∀ t, p.Backed t) (j : ℕ) :
    Function.update pc k p j = pc j ∨ ∀ t, (Function.update pc k p j).Backed t := by
  by_cases hj : j = k
  · rw [hj, Function.update_self]
    exact .inr hp
  · rw [Function.update_of_ne hj]
    exact .inl rfl

theorem still_pc {a : Act} (hstill : a.still = true) (hs : s.step disk a = some s') (j : ℕ) :
    s'.pc j = s.pc j ∨ ∀ t, (s'.pc j).Backed t := by
  cases a with
  | run k io room => cases hstill
  | reclaim want => cases hstill
  | map pid va frame perm room => cases hstill
  | create => cases hs; exact .inl rfl
  | openModel start size io =>
    cases hs
    refine .inl ?_
    split <;> rfl
  | modelMap pid id uva =>
    rw [Sys.step] at hs
    split_ifs at hs
    cases hs
    refine .inl ?_
    unfold Sys.modelMap
    split_ifs
    · rfl
    · split <;> rfl
  | load k pid va =>
    rw [Sys.step] at hs
    split_ifs at hs
    cases hs
    unfold Sys.load
    split
    · exact update_backed (p := .user) s.pc (fun _ => trivial) j
    · split
      · exact update_backed (p := .user) s.pc (fun _ => trivial) j
      · exact update_backed (p := .faulting _) s.pc (fun _ => trivial) j
  | copyFrom k pid uva len =>
    rw [Sys.step] at hs
    split_ifs at hs
    · cases hs
      exact update_backed (p := .user) s.pc (fun _ => trivial) j
    · cases hs
      exact update_backed (p := .copyFrom _) s.pc (fun _ => trivial) j
  | copyTo k pid uva data =>
    rw [Sys.step] at hs
    split_ifs at hs
    cases hs
    exact update_backed (p := .copyTo _) s.pc (fun _ => trivial) j
  | take =>
    rw [Sys.step] at hs
    split at hs <;>
    · cases hs
      exact .inl rfl
  | write frame page =>
    rw [Sys.step] at hs
    split_ifs at hs
    cases hs
    exact .inl rfl
  | release frame =>
    rw [Sys.step] at hs
    split_ifs at hs
    cases hs
    exact .inl rfl

/-- What a thread finds resident, or makes so, is there when it goes on. -/
theorem backed_advance (hsound : s.Sound disk) {io : ℕ → Bool} {room : ℕ}
    (hs : s.advance disk k io room (s.pc k) = some s') (j : ℕ) :
    s'.pc j = s.pc j ∨ (s'.pc j).Backed s' := by
  have hmove : ∀ p : Pc, p.Backed s' → s'.pc = Function.update s.pc k p →
      s'.pc j = s.pc j ∨ (s'.pc j).Backed s' := by
    intro p hp hpc
    rw [hpc]
    by_cases hj : j = k
    · rw [hj, Function.update_self]
      exact .inr hp
    · rw [Function.update_of_ne hj]
      exact .inl rfl
  cases hpc : s.pc k with
  | user => rw [hpc] at hs; cases hs
  | faulting c =>
    rw [hpc] at hs
    cases hs
    unfold Sys.lookUp at hmove ⊢
    rcases s.store.lookUp_cases c.id c.index with ⟨-, hl⟩ | ⟨frame, hpage, hl⟩ | ⟨-, hl⟩ | ⟨-, hl⟩ <;>
      rw [hl] at hmove ⊢
    · exact hmove .user trivial rfl
    · refine hmove (.mapping c frame) ?_ rfl
      exact (Store.pageAt_modify (g := Model.faulted) (fun _ => rfl) (fun _ => rfl) c.id _ _).trans hpage
    · exact .inl rfl
    · exact hmove (.claimed c) trivial rfl
  | claimed c =>
    rw [hpc] at hs
    cases hs
    unfold Sys.readIn at hmove ⊢
    split at hmove
    · exact hmove .user trivial rfl
    · split at hmove
      · exact hmove (.failed c) trivial rfl
      · split at hmove
        · exact hmove (.failed c) trivial rfl
        · exact hmove (.loaded c _) trivial rfl
  | failed c => rw [hpc] at hs; cases hs; exact hmove .user trivial rfl
  | loaded c frame =>
    rw [hpc] at hs
    cases hs
    have hloading := hsound.inv.claims.used k c.toPageId (by rw [hpc]; rfl)
    unfold Sys.publish at hmove ⊢
    split at hmove
    · exact hmove .user trivial rfl
    · refine hmove (.mapping c frame) ?_ rfl
      exact (pageAt_set (q := c.toPageId) hloading _ _).mpr (.inl ⟨rfl, rfl⟩)
  | mapping c frame =>
    rw [hpc] at hs
    cases hs
    unfold Sys.mapInto at hmove ⊢
    split_ifs at hmove ⊢
    · dsimp only at hmove ⊢
      split at hmove <;> exact hmove .user trivial rfl
    · exact hmove .user trivial rfl
  | copyFrom c =>
    rw [hpc] at hs
    cases hs
    unfold Sys.copyFromHead at hmove ⊢
    split_ifs at hmove ⊢
    · cases hleaf : s.spaces c.pid (pageOf (c.uva + c.out.length)) with
      | none =>
        rw [hleaf] at hmove
        exact hmove .user trivial rfl
      | some leaf =>
        rw [hleaf] at hmove
        exact hmove (.copyPiece c leaf) (fun q => hsound.agrees.resident _ _ leaf q hleaf) rfl
    · exact hmove .user trivial rfl
  | copyPiece c leaf => rw [hpc] at hs; cases hs; exact hmove (.copyFrom _) trivial rfl
  | copyTo c =>
    rw [hpc] at hs
    cases hs
    unfold Sys.copyToHead at hmove ⊢
    split_ifs at hmove ⊢
    · split at hmove
      · exact hmove .user trivial rfl
      · exact hmove (.writePiece c _) trivial rfl
    · exact hmove .user trivial rfl
  | writePiece c leaf => rw [hpc] at hs; cases hs; exact hmove (.copyTo _) trivial rfl

/-! ## What the processes have -/

/-- Only what is mapped changes what the processes have. -/
theorem told_pages {a : Act} (hstill : a.still = true) :
    ((processes disk).told i (s.see i a)).pages = i.pages := by
  cases a with
  | run k io room => cases hstill
  | reclaim want => cases hstill
  | map pid va frame perm room => cases hstill
  | openModel start size io =>
    show (i.after disk (.openModel start size)).pages = i.pages
    unfold Kept.after
    dsimp only
    split <;> rfl
  | modelMap pid id uva =>
    show (i.modelMap pid id uva).pages = i.pages
    unfold Kept.modelMap
    split_ifs
    · rfl
    · split <;> rfl
  | load k pid va =>
    show ((processes disk).told i (s.seeLoad k pid va)).pages = i.pages
    have hload : ∀ other, (i.load disk k pid va other).pages = i.pages := by
      intro other
      unfold Kept.load
      split <;> rfl
    unfold Sys.seeLoad
    split
    · exact hload _
    · split
      · exact hload 0
      · rfl
  | copyFrom k pid uva len =>
    show (i.after disk (.copyFrom k pid uva len)).pages = i.pages
    unfold Kept.after
    dsimp only
    split_ifs <;> rfl
  | _ => rfl

theorem told_pages_advance (hmap : ∀ c frame, s.pc k ≠ .mapping c frame) :
    ((processes disk).told i (s.seeRun i k (s.pc k))).pages = i.pages := by
  have hcopy : ∀ other, (i.copy disk k other (i.task k)).pages = i.pages := by
    intro other
    cases i.task k with
    | user => rfl
    | copyFrom c =>
      show (i.copyFromHead k c).pages = i.pages
      unfold Kept.copyFromHead
      split_ifs
      · split <;> rfl
      · rfl
    | copyPiece c source => cases source <;> rfl
    | copyTo c =>
      show (i.copyToHead k c).pages = i.pages
      unfold Kept.copyToHead
      split_ifs
      · split <;> rfl
      · rfl
    | writePiece c target => rfl
  cases hpc : s.pc k with
  | mapping c frame => exact absurd hpc (hmap c frame)
  | copyFrom c => exact hcopy _
  | copyPiece c leaf => exact hcopy _
  | copyTo c => exact hcopy _
  | writePiece c leaf => exact hcopy _
  | _ => rfl

/-- A page that a process has is in its address space. -/
theorem Solid.setPage (h : Solid s i) {pid page : ℕ} {source : Option PageId} {m : PageMap (Option PageId)}
    (hold : ∀ page', (s.spaces pid page').isSome → (m page').isSome) (hnew : (m page).isSome)
    (pid' page' : ℕ) (hpages : ((i.setPage pid page source).pages pid' page').isSome) :
    ((s.setSpace pid m).spaces pid' page').isSome := by
  unfold Kept.setPage at hpages
  unfold Sys.setSpace
  dsimp only at hpages ⊢
  by_cases hpid : pid' = pid
  · subst hpid
    rw [Function.update_self] at hpages ⊢
    by_cases hpage : page' = page
    · rw [hpage]
      exact hnew
    · rw [Function.update_of_ne hpage] at hpages
      exact hold page' (h.pages pid' page' hpages)
  · rw [Function.update_of_ne hpid] at hpages ⊢
    exact h.pages pid' page' hpages

/-- Without `reclaim` the processes keep every page that they have had. -/
theorem solid_step (h : Solid s i) (hsound : s.Sound disk) {a : Act} (hserved : s.Served a)
    (hno : a.reclaims = false) (hs : s.step disk a = some s') :
    Solid s' ((processes disk).told i (s.see i a)) := by
  have hresident : ∀ (q : PageId) f, s.store.pageAt q.id q.index = some (.resident f) →
      s'.store.pageAt q.id q.index = some (.resident f) := fun _ _ => resident_step hsound.inv hno hs
  cases a with
  | run k io room =>
    refine ⟨?_, fun j => ?_⟩
    · show ∀ pid page, (((processes disk).told i (s.seeRun i k (s.pc k))).pages pid page).isSome →
        (s'.spaces pid page).isSome
      by_cases hmap : ∃ c frame, s.pc k = .mapping c frame
      · obtain ⟨c, frame, hpc⟩ := hmap
        unfold Sys.Served at hserved
        dsimp only at hserved
        have hs' : s.advance disk k io room (s.pc k) = some s' := hs
        rw [hpc] at hs' hserved
        cases hs'
        rw [hpc, told_mapping, mapInto_eq hsound hpc hserved]
        refine h.setPage (fun page' hold => ?_) (by rw [Function.update_self]; rfl)
        by_cases hpage : page' = pageOf c.va
        · rw [hpage, Function.update_self]
          rfl
        · rwa [Function.update_of_ne hpage]
      · have hother : ∀ c frame, s.pc k ≠ .mapping c frame := fun c frame hpc => hmap ⟨c, frame, hpc⟩
        rw [told_pages_advance hother, advance_spaces hs hother]
        exact h.pages
    · rcases backed_advance hsound hs j with hsame | hnew
      · rw [hsame]
        exact (h.backed j).kept hresident
      · exact hnew
  | reclaim want => cases hno
  | map pid va frame perm room =>
    rw [Sys.step] at hs
    split_ifs at hs with hf
    cases hs
    refine ⟨?_, fun j => (h.backed j).kept hresident⟩
    have haligned : frame % PAGE_SIZE = 0 :=
      Nat.mod_eq_zero_of_dvd (hf.2.elim (hsound.inv.owned.used .others frame)
        (hsound.inv.owned.used .pinned frame)).aligned
    show ∀ pid' page, ((if va % PAGE_SIZE = 0 ∧ 0 < room then i.setPage pid (pageOf va) none
      else i).pages pid' page).isSome → _
    split_ifs with hroom
    · refine h.setPage (fun _ => PageMap.map_isSome) ?_
      rw [PageMap.map_page _ _ _ hroom.1 haligned hroom.2]
      dsimp only
      rw [Function.update_self]
      rfl
    · intro pid' page hpages
      have hold := h.pages pid' page hpages
      show (Function.update s.spaces pid _ pid' page).isSome
      by_cases hpid : pid' = pid
      · subst hpid
        rw [Function.update_self]
        exact PageMap.map_isSome hold
      · rwa [Function.update_of_ne hpid]
  | _ =>
    refine ⟨?_, fun j => ?_⟩
    · rw [told_pages rfl, step_spaces rfl hs]
      exact h.pages
    · rcases still_pc rfl hs j with hsame | hnew
      · rw [hsame]
        exact (h.backed j).kept hresident
      · exact hnew s'

end

/-! ## Runs -/

/-- The device reads, the allocator has frames, and no copy goes to a page of a model. -/
def Sys.Smooth (s : Sys) (a : Act) : Prop := s.Served a ∧ s.SparesModels a

theorem Sys.Init.sound {s : Sys} (h : s.Init) (disk : Disk) : s.Sound disk := by
  refine ⟨h.inv, fun q f m _ hm => ?_, h.agrees⟩
  rw [h.store] at hm
  cases hm

theorem Sys.Init.view {s : Sys} (h : s.Init) : View s .boot := by
  refine ⟨h.store ▸ ⟨rfl, rfl⟩, funext h.vmas, ⟨fun f hf => ?_, fun pid v hv => ?_⟩, fun k c => ?_,
    fun pid page leaf hleaf => ?_, fun k => ?_, h.log⟩
  · cases hf
  · cases hv
  · rw [h.pc]
    nofun
  · rw [h.spaces] at hleaf
    cases hleaf
  · rw [h.pc]
    rfl

theorem Sys.Init.solid {s : Sys} (h : s.Init) : Solid s .boot := by
  refine ⟨fun pid page hpage => ?_, fun k => ?_⟩
  · cases hpage
  · rw [h.pc]
    trivial

/-- A run with calls of `reclaim` against one without them in which the processes do the same: every
load and every copy is answered the same, where each step of the first run finds the pages that it
uses. -/
theorem reclaim_unseen (disk : Disk) {s t t' : Sys} (hs : s.Init) {acts acts' : List Act}
    (hrun : Run.exec (Sys.step disk) s acts = some t)
    (hmeets : Run.Meets ((processes disk).beside (Sys.step disk))
      (fun x a => x.1.Smooth a ∧ x.1.Undisturbed x.2 a) (s, .boot) acts)
    (hrun' : Run.exec (Sys.step disk) s acts' = some t')
    (hmeets' : Run.Meets (Sys.step disk) (fun s a => s.Smooth a ∧ a.reclaims = false) s acts')
    (hseen : (processes disk).seen (Sys.step disk) (s, .boot) acts =
      (processes disk).seen (Sys.step disk) (s, .boot) acts') : t.log = t'.log := by
  have hboth : ∀ x : Sys × Kept, ∀ a s', (x.1.Sound disk ∧ View x.1 x.2) →
      (x.1.Smooth a ∧ x.1.Undisturbed x.2 a) → x.1.step disk a = some s' →
      s'.Sound disk ∧ View s' ((processes disk).told x.2 (x.1.see x.2 a)) :=
    fun x a s' hx hok hstep => ⟨sound_step hx.1 hok.1.2 hok.2 hstep,
      view_step hx.2 hx.1 hok.1.1 hok.2 hstep⟩
  refine Run.Observer.same_of_seen (o := processes disk) (fun x => x.1.Sound disk ∧ View x.1 x.2)
    (fun x => (x.1.Sound disk ∧ View x.1 x.2) ∧ Solid x.1 x.2) Sys.log Kept.log hboth ?_
    (fun x hx => hx.2.log) (fun x hx => hx.1.2.log) ⟨hs.sound disk, hs.view⟩
    ⟨⟨hs.sound disk, hs.view⟩, hs.solid⟩ hmeets hrun (Run.Observer.meets_beside acts' hmeets') hrun' hseen
  -- without `reclaim` every step finds the pages that it uses
  rintro x a s' ⟨hx, hsolid⟩ ⟨hsmooth, hno⟩ hstep
  exact ⟨hboth x a s' hx ⟨hsmooth, hsolid.undisturbed a⟩ hstep,
    solid_step hsolid hx.1 hsmooth.1 hno hstep⟩

/-- A process loads twice from a page. -/
def demoTwoLoads : List Act := demoLoad ++ [.load 0 0 8]

/-- The page is taken after the first load. -/
def demoReload : List Act :=
  demoLoad ++ [.reclaim 1, .load 0 0 8, .run 0 (fun _ => true) 1, .run 0 (fun _ => true) 1,
    .run 0 (fun _ => true) 1, .run 0 (fun _ => true) 1, .load 0 0 8]

theorem meets_demoTwoLoads : Run.Meets (Sys.step demoDisk) (fun s a => s.Smooth a ∧ a.reclaims = false)
    demoBoot demoTwoLoads := by
  refine .cons rfl ⟨⟨trivial, trivial⟩, rfl⟩ ?_
  refine .cons rfl ⟨⟨fun _ => rfl, trivial⟩, rfl⟩ ?_
  refine .cons rfl ⟨⟨trivial, trivial⟩, rfl⟩ ?_
  refine .cons rfl ⟨⟨trivial, trivial⟩, rfl⟩ ?_
  refine .cons rfl ⟨⟨trivial, trivial⟩, rfl⟩ ?_
  refine .cons rfl ⟨⟨⟨fun _ => rfl, rfl⟩, trivial⟩, rfl⟩ ?_
  refine .cons rfl ⟨⟨trivial, trivial⟩, rfl⟩ ?_
  refine .cons rfl ⟨⟨Nat.one_pos, trivial⟩, rfl⟩ ?_
  refine .cons rfl ⟨⟨trivial, trivial⟩, rfl⟩ ?_
  refine .cons rfl ⟨⟨trivial, trivial⟩, rfl⟩ ?_
  trivial

theorem meets_demoReload : Run.Meets ((processes demoDisk).beside (Sys.step demoDisk))
    (fun x a => x.1.Smooth a ∧ x.1.Undisturbed x.2 a) (demoBoot, .boot) demoReload := by
  refine .cons rfl ⟨⟨trivial, trivial⟩, trivial⟩ ?_
  refine .cons rfl ⟨⟨fun _ => rfl, trivial⟩, trivial⟩ ?_
  refine .cons rfl ⟨⟨trivial, trivial⟩, trivial⟩ ?_
  refine .cons rfl ⟨⟨trivial, trivial⟩, fun _ => .inl rfl⟩ ?_
  refine .cons rfl ⟨⟨trivial, trivial⟩, trivial⟩ ?_
  refine .cons rfl ⟨⟨⟨fun _ => rfl, rfl⟩, trivial⟩, trivial⟩ ?_
  refine .cons rfl ⟨⟨trivial, trivial⟩, trivial⟩ ?_
  refine .cons rfl ⟨⟨Nat.one_pos, trivial⟩, rfl⟩ ?_
  refine .cons rfl ⟨⟨trivial, trivial⟩, nofun⟩ ?_
  refine .cons rfl ⟨⟨trivial, trivial⟩, trivial⟩ ?_
  -- the load finds no entry, and its fault is for the page that it has had
  refine .cons rfl ⟨⟨trivial, trivial⟩, fun _ => .inr ⟨⟨1, 0⟩, rfl, rfl⟩⟩ ?_
  refine .cons rfl ⟨⟨trivial, trivial⟩, trivial⟩ ?_
  refine .cons rfl ⟨⟨⟨fun _ => rfl, rfl⟩, trivial⟩, trivial⟩ ?_
  refine .cons rfl ⟨⟨trivial, trivial⟩, trivial⟩ ?_
  refine .cons rfl ⟨⟨Nat.one_pos, trivial⟩, rfl⟩ ?_
  refine .cons rfl ⟨⟨trivial, trivial⟩, nofun⟩ ?_
  trivial

/-- What the process sees of either run. -/
def demoSeen : List Event :=
  [.openModel 64 600, .modelMap 0 1 0, .touch 0 0 ⟨1, 0⟩, .load 0 0 8 0, .load 0 0 8 0]

theorem seen_demoTwoLoads :
    (processes demoDisk).seen (Sys.step demoDisk) (demoBoot, .boot) demoTwoLoads = demoSeen := rfl

theorem seen_demoReload :
    (processes demoDisk).seen (Sys.step demoDisk) (demoBoot, .boot) demoReload = demoSeen := rfl

theorem reclaim_unseen_demoReload : ∃ t t', Run.exec (Sys.step demoDisk) demoBoot demoReload = some t ∧
    Run.exec (Sys.step demoDisk) demoBoot demoTwoLoads = some t' ∧ t.log = t'.log := by
  obtain ⟨t, ht⟩ := Option.isSome_iff_exists.mp
    (show (Run.exec (Sys.step demoDisk) demoBoot demoReload).isSome = true from rfl)
  obtain ⟨t', ht'⟩ := Option.isSome_iff_exists.mp
    (show (Run.exec (Sys.step demoDisk) demoBoot demoTwoLoads).isSome = true from rfl)
  exact ⟨t, t', ht, ht', reclaim_unseen demoDisk init_demoBoot ht meets_demoReload ht' meets_demoTwoLoads
    (seen_demoReload.trans seen_demoTwoLoads.symm)⟩

/-- The kernel copies from the page that the process has loaded from. -/
def demoCopy : List Act :=
  demoLoad ++ [.copyFrom 0 0 8 4, .run 0 (fun _ => true) 1, .run 0 (fun _ => true) 1,
    .run 0 (fun _ => true) 1]

/-- The page is taken before the copy. -/
def demoCopyTaken : List Act := demoLoad ++ [.reclaim 1, .copyFrom 0 0 8 4, .run 0 (fun _ => true) 1]

/-- The same load and the same copy: without `reclaim` the bytes are copied, and with it the call is
refused. -/
theorem copy_refused : ∃ s t bytes,
    Run.exec (Sys.step demoDisk) demoBoot demoCopy = some s ∧
    Run.exec (Sys.step demoDisk) demoBoot demoCopyTaken = some t ∧
    s.log.map Prod.fst = [.copyFrom 0 8 4, .load 0 8] ∧ t.log.map Prod.fst = s.log.map Prod.fst ∧
    s.log.head? = some (.copyFrom 0 8 4, .copied bytes) ∧
    t.log.head? = some (.copyFrom 0 8 4, .refused "unmapped user address") := by
  have hkept : (Run.exec (Sys.step demoDisk) demoBoot demoCopy).map (fun s =>
      (s.log.map Prod.fst, s.log.head?)) = some (_, _) := rfl
  have htaken : (Run.exec (Sys.step demoDisk) demoBoot demoCopyTaken).map (fun s =>
      (s.log.map Prod.fst, s.log.head?)) = some (_, _) := rfl
  obtain ⟨s, hs, hlog⟩ := Option.map_eq_some_iff.mp hkept
  obtain ⟨t, ht, hlog'⟩ := Option.map_eq_some_iff.mp htaken
  obtain ⟨hreq, hhead⟩ := Prod.mk.inj hlog
  obtain ⟨hreq', hhead'⟩ := Prod.mk.inj hlog'
  exact ⟨s, t, _, hs, ht, hreq, hreq'.trans hreq.symm, hhead, hhead'⟩

end JungeyOs.ModelStore
