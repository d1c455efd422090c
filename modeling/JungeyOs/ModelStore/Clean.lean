import JungeyOs.ModelStore.Invariant

/-!
# Weight pages are clean

A page of a model is a copy of its file on flash, which `reclaim` relies on when it drops the page
without writing it back. Processes cannot store to it, but `copy_to_user` goes by the address alone.

Results:
* `Faithful.kept`: what has to be shown of a step that reads no page in.
* `faithful_step`: a step that writes to no page of a model keeps every such page as it is on flash.
* `clean_iff`: in a run no frame is written that is mapped without leave to write, and so every page of
  a model is as it is on flash, exactly when each piece of a copy goes to an entry for writing.
* `weights_overwritten`: a process has the kernel write over the weights.
-/

namespace JungeyOs.ModelStore

open Mm

/-! ## The claim -/

/-- The entry that a copy goes through is for writing, and the process has its frame nowhere mapped
otherwise. -/
def Spared (leaf : Leaf (Option PageId)) (space : PageMap (Option PageId)) : Prop :=
  ¬ReadOnly leaf.perm ∧
    ∀ page leaf', space page = some leaf' → leaf'.frame = leaf.frame → ¬ReadOnly leaf'.perm

namespace Sys

/-- The kernel has written to no frame that was mapped into the process without leave to write, and
every page of a model is as it is on flash. -/
structure Clean (disk : Disk) (s : Sys) : Prop where
  written : ∀ w ∈ s.written, Spared w.1 w.2
  weights : ∀ id index frame m, s.store.model id = some m →
    s.store.pageAt id index = some (.resident frame) →
    s.mem frame = filePage disk m.startSector m.size index

/-- A piece of a copy goes to an entry for writing. -/
def Spares (s : Sys) : Act → Prop
  | .run k _ _ =>
    match s.pc k with
    | .writePiece c leaf => Spared leaf (s.spaces c.pid)
    | _ => True
  | _ => True

/-! ## The invariant -/

/-- A page of a model is in a frame: it is resident, or a fault is about to publish it. -/
def Held (s : Sys) (q : PageId) (f : ℕ) : Prop :=
  s.store.pageAt q.id q.index = some (.resident f) ∨ ∃ k c, s.pc k = .loaded c f ∧ c.toPageId = q

/-- What is in a frame for a page of a model is as it is on flash. -/
def Faithful (disk : Disk) (s : Sys) : Prop :=
  ∀ q f m, s.Held q f → s.store.model q.id = some m →
    s.mem f = filePage disk m.startSector m.size q.index

end Sys

section

variable {s s' : Sys} {k : ℕ} {p : Pc} {f : ℕ} {q : PageId} {disk : Disk}

theorem Sys.Held.owner (h : s.Held q f) : ∃ o, s.Owns o f ∧ o ≠ .others ∧ o ≠ .pinned := by
  rcases h with hpage | ⟨k, c, hpc, -⟩
  · exact ⟨.page q, hpage, nofun, nofun⟩
  · refine ⟨.thread k, ?_, nofun, nofun⟩
    rw [Sys.Owns, hpc]
    rfl

theorem Sys.Held.used (h : s.Held q f) (hi : Inv s) : s.frames.Used s.mem f := by
  obtain ⟨o, ho, -⟩ := h.owner
  exact hi.owned.used o f ho

/-- The frames of the rest of the kernel hold no page of a model. -/
theorem Sys.Held.ne (h : s.Held q f) (hi : Inv s) {g : ℕ} (hg : g ∈ s.others ∨ g ∈ s.pinned) :
    f ≠ g := by
  rintro rfl
  obtain ⟨o, ho, hothers, hpinned⟩ := h.owner
  rcases hg with hg | hg
  · exact hothers (hi.owned.apart o .others f ho hg)
  · exact hpinned (hi.owned.apart o .pinned f ho hg)

/-- The model of a page that is held. -/
theorem Sys.Held.model (h : s.Held q f) (hi : Inv s) : ∃ m, s.store.model q.id = some m := by
  have hpage : ∃ x, s.store.pageAt q.id q.index = some x := by
    rcases h with hpage | ⟨k, c, hpc, rfl⟩
    · exact ⟨_, hpage⟩
    · exact ⟨_, hi.claims.used k c.toPageId (by rw [hpc]; rfl)⟩
  obtain ⟨x, hx⟩ := hpage
  obtain ⟨m, hm, -⟩ := Option.bind_eq_some_iff.mp hx
  exact ⟨m, hm⟩

/-- Every model has the file that it had. -/
def SameFiles (st st' : Store) : Prop :=
  ∀ id m, st.model id = some m →
    ∃ m', st'.model id = some m' ∧ m'.startSector = m.startSector ∧ m'.size = m.size

theorem SameFiles.refl (st : Store) : SameFiles st st := fun _ m hm => ⟨m, hm, rfl, rfl⟩

theorem SameFiles.modify {st : Store} {g : Model → Model} (hg : ∀ m, (g m).id = m.id)
    (hstart : ∀ m, (g m).startSector = m.startSector) (hsize : ∀ m, (g m).size = m.size) (id : ℕ) :
    SameFiles st (st.modify id g) := by
  intro id' m hm
  refine ⟨if id' = id then g m else m, by rw [Store.model_modify hg, hm, Option.map_some], ?_⟩
  split_ifs
  · exact ⟨hstart m, hsize m⟩
  · exact ⟨rfl, rfl⟩

theorem SameFiles.trans {st st' st'' : Store} (h : SameFiles st st') (h' : SameFiles st' st'') :
    SameFiles st st'' := by
  intro id m hm
  obtain ⟨m', hm', hstart, hsize⟩ := h id m hm
  obtain ⟨m'', hm'', hstart', hsize'⟩ := h' id m' hm'
  exact ⟨m'', hm'', hstart'.trans hstart, hsize'.trans hsize⟩

/-- A step that reads no page in: what is held was held before, and has not been written to. -/
theorem Faithful.kept (h : s.Faithful disk) (hi : Inv s) (hfiles : SameFiles s.store s'.store)
    (hheld : ∀ q f, s'.Held q f → s.Held q f) (hmem : ∀ q f, s.Held q f → s'.mem f = s.mem f) :
    s'.Faithful disk := by
  intro q f m' hq hm'
  have hold := hheld q f hq
  obtain ⟨m, hm⟩ := hold.model hi
  obtain ⟨x, hx, hstart, hsize⟩ := hfiles q.id m hm
  rw [hm'] at hx
  cases hx
  rw [hmem q f hold, h q f m hold hm, hstart, hsize]

/-- A thread moves, and has no page in a frame afterwards. -/
theorem held_update (hpc : s'.pc = Function.update s.pc k p) (hframe : p.frame = none)
    (hpages : ∀ (q : PageId) f, s'.store.pageAt q.id q.index = some (.resident f) → s.Held q f)
    (h : s'.Held q f) : s.Held q f := by
  rcases h with hpage | ⟨j, c, hj, hq⟩
  · exact hpages q f hpage
  · rw [hpc] at hj
    by_cases hjk : j = k
    · rw [hjk, Function.update_self] at hj
      rw [hj] at hframe
      cases hframe
    · rw [Function.update_of_ne hjk] at hj
      exact .inr ⟨j, c, hj, hq⟩

/-- A step that only moves a thread. -/
theorem Faithful.goto (h : s.Faithful disk) (hi : Inv s) (hpc : s'.pc = Function.update s.pc k p)
    (hframe : p.frame = none) (hstore : s'.store = s.store) (hmem : s'.mem = s.mem) :
    s'.Faithful disk :=
  Faithful.kept h hi (hstore ▸ SameFiles.refl _)
    (fun _ _ hq => held_update hpc hframe (fun _ _ hpage => .inl (hstore ▸ hpage)) hq)
    fun _ _ _ => by rw [hmem]

/-! ## Every step -/

theorem Faithful.lookUp (h : s.Faithful disk) (hi : Inv s) (c : Fault) :
    (s.lookUp k c).Faithful disk := by
  unfold Sys.lookUp
  have hfaulted : ∀ id i, (s.store.modify c.id Model.faulted).pageAt id i = s.store.pageAt id i :=
    Store.pageAt_modify (g := Model.faulted) (fun _ => rfl) (fun _ => rfl) c.id
  have hfiles : SameFiles s.store (s.store.modify c.id Model.faulted) :=
    .modify (g := Model.faulted) (fun _ => rfl) (fun _ => rfl) (fun _ => rfl) c.id
  rcases s.store.lookUp_cases c.id c.index with ⟨-, hl⟩ | ⟨frame, -, hl⟩ | ⟨-, hl⟩ | ⟨hpage, hl⟩ <;>
    rw [hl]
  · exact Faithful.goto (p := .user) h hi rfl rfl rfl rfl
  · refine Faithful.kept h hi hfiles (fun q f hq => ?_) fun _ _ _ => rfl
    exact held_update (p := .mapping c frame) rfl rfl
      (fun q f hp => .inl ((hfaulted q.id q.index).symm.trans hp)) hq
  · exact h
  · refine Faithful.kept h hi (hfiles.trans
      (.modify (g := Model.setPage c.index .loading) (fun _ => rfl) (fun _ => rfl) (fun _ => rfl) c.id))
      (fun q f hq => held_update (p := .claimed c) rfl rfl (fun q f hp => ?_) hq) fun _ _ _ => rfl
    rcases (pageAt_set (q := c.toPageId) ((hfaulted c.id c.index).trans hpage) q _).mp hp with
      ⟨-, hx⟩ | ⟨-, hx⟩
    · cases hx
    · exact .inl ((hfaulted q.id q.index).symm.trans hx)

/-- A fault reads its page as it is on flash. -/
theorem Faithful.readIn (h : s.Faithful disk) (hi : Inv s) (c : Fault) (io : ℕ → Bool) :
    (s.readIn disk k c io).Faithful disk := by
  unfold Sys.readIn
  cases hm : s.store.model c.id with
  | none => exact Faithful.goto (p := .user) h hi rfl rfl rfl rfl
  | some m =>
    dsimp only
    cases ha : s.frames.alloc s.mem with
    | mk r frames =>
      cases r with
      | none => exact Faithful.goto (p := .failed c) h hi rfl rfl rfl rfl
      | some frame =>
        obtain ⟨hwf, hnew, hfresh, -⟩ := hi.frames.alloc ha
        have hne : ∀ q f, s.Held q f → f ≠ frame := fun q f hq hf => hfresh (hf ▸ hq.used hi)
        dsimp only
        cases hread : readPage (readSector disk io) m.startSector m.size c.index with
        | none =>
          obtain ⟨-, -, -, hmem⟩ := hwf.free hnew rfl
          dsimp only
          refine Faithful.kept h hi (.refl _) (fun q f hq => ?_) fun q f hq => hmem f (hne q f hq)
          refine held_update (p := .failed c) rfl rfl (fun _ _ hp => ?_) hq
          exact .inl hp
        | some page =>
          intro q f x hq hx
          show Function.update s.mem frame page f = _
          rcases hq with hpage | ⟨j, c', hj, hq⟩
          · rw [Function.update_of_ne (hne q f (.inl hpage)), h q f x (.inl hpage) hx]
          · dsimp only [Sys.goto] at hj
            by_cases hjk : j = k
            · rw [hjk, Function.update_self] at hj
              cases hj
              subst hq
              rw [show s.store.model c.id = some x from hx] at hm
              cases hm
              rw [Function.update_self, readPage_eq hread]
            · rw [Function.update_of_ne hjk] at hj
              have hold : s.Held q f := .inr ⟨j, c', hj, hq⟩
              rw [Function.update_of_ne (hne q f hold), h q f x hold hx]

theorem Faithful.giveUp (h : s.Faithful disk) (hi : Inv s) {c : Fault} (hpc : s.pc k = .failed c) :
    (s.giveUp k c).Faithful disk := by
  have hloading := hi.claims.used k c.toPageId (by rw [hpc]; rfl)
  refine Faithful.kept h hi
    (.modify (g := Model.setPage c.index .absent) (fun _ => rfl) (fun _ => rfl) (fun _ => rfl) c.id)
    (fun q f hq => held_update (p := .user) rfl rfl (fun q f hp => ?_) hq) fun _ _ _ => rfl
  rcases (pageAt_set (q := c.toPageId) hloading q _).mp hp with ⟨-, hx⟩ | ⟨-, hx⟩
  · cases hx
  · exact .inl hx

theorem Faithful.publish (h : s.Faithful disk) (hi : Inv s) {c : Fault} {frame : ℕ}
    (hpc : s.pc k = .loaded c frame) : (s.publish k c frame).Faithful disk := by
  unfold Sys.publish
  cases hm : s.store.model c.id with
  | none =>
    have hused := hi.owned.used (.thread k) frame (by rw [Sys.Owns, hpc]; rfl)
    obtain ⟨-, -, -, hmem⟩ := hi.frames.free hused rfl
    -- a page that is being read has a model
    have hheld : s.Held c.toPageId frame := .inr ⟨k, c, hpc, rfl⟩
    obtain ⟨m, hm'⟩ := hheld.model hi
    rw [show s.store.model c.id = some m from hm'] at hm
    cases hm
  | some m =>
    have hloading := hi.claims.used k c.toPageId (by rw [hpc]; rfl)
    refine Faithful.kept h hi
      (.modify (g := Model.setPage c.index (.resident frame)) (fun _ => rfl) (fun _ => rfl)
        (fun _ => rfl) c.id)
      (fun q f hq => held_update (p := .mapping c frame) rfl rfl (fun q f hp => ?_) hq) fun _ _ _ => rfl
    rcases (pageAt_set (q := c.toPageId) hloading q _).mp hp with ⟨rfl, hx⟩ | ⟨-, hx⟩
    · cases hx
      exact .inr ⟨k, c, hpc, rfl⟩
    · exact .inl hx

theorem Faithful.mapInto (h : s.Faithful disk) (hi : Inv s) (c : Fault) (frame room : ℕ) :
    (s.mapInto k c frame room).Faithful disk := by
  unfold Sys.mapInto
  split_ifs
  · dsimp only
    split <;> exact Faithful.goto (p := .user) h hi rfl rfl rfl rfl
  · exact Faithful.goto (p := .user) h hi rfl rfl rfl rfl

/-- The frame of a page goes back when `reclaim` has taken the page. -/
theorem Faithful.evict (h : s.Faithful disk) (hi : Inv s) {frame : ℕ}
    (hpage : s.store.pageAt q.id q.index = some (.resident frame)) (mappings : List Mapping) :
    (s.evict q.id mappings q.index frame).Faithful disk := by
  obtain ⟨-, -, -, hmem⟩ := hi.frames.free (hi.owned.used (.page q) frame hpage) rfl
  have hset := pageAt_evicted hpage
  intro r f m' hr hm'
  have hr' : s.Held r f ∧ f ≠ frame := by
    rcases hr with hr | ⟨j, c, hj, hjr⟩
    · rcases (hset r _).mp hr with ⟨-, hx⟩ | ⟨hne, hx⟩
      · cases hx
      · refine ⟨.inl hx, ?_⟩
        rintro rfl
        exact hne (Owner.page.inj (hi.owned.apart (.page r) (.page q) f hx hpage))
    · refine ⟨.inr ⟨j, c, hj, hjr⟩, ?_⟩
      rintro rfl
      have hthread : s.Owns (.thread j) f := by
        rw [Sys.Owns, show s.pc j = .loaded c f from hj]
        rfl
      cases hi.owned.apart (.thread j) (.page q) f hthread hpage
  obtain ⟨m, hm⟩ := hr'.1.model hi
  obtain ⟨x, hx, hstart, hsize⟩ := SameFiles.modify (g := Model.evicted q.index) (fun _ => rfl)
    (fun _ => rfl) (fun _ => rfl) q.id r.id m hm
  rw [show (s.store.modify q.id (Model.evicted q.index)).model r.id = some m' from hm'] at hx
  cases hx
  rw [hstart, hsize, ← h r f m hr'.1 hm]
  exact hmem f hr'.2

theorem Faithful.reclaim (h : s.Faithful disk) (hi : Inv s) (want : ℕ) :
    (s.reclaim want).2.Faithful disk :=
  (reclaim_induct (motive := fun t => Inv t ∧ t.Faithful disk) hi.numbered
    (fun _ id mappings index _ ht _ hpage => ⟨ht.1.evict (q := ⟨id, index⟩) hpage mappings,
      Faithful.evict (q := ⟨id, index⟩) ht.2 ht.1 hpage mappings⟩) ⟨hi, h⟩ want).2

/-- A piece of a copy goes to no page of a model. -/
def Sys.SparesModels (s : Sys) : Act → Prop
  | .run k _ _ =>
    match s.pc k with
    | .writePiece _ leaf => leaf.tag = none
    | _ => True
  | _ => True

/-- The pages of the models are not for writing. -/
theorem Sys.Spares.sparesModels (hi : Inv s) {a : Act} (h : s.Spares a) : s.SparesModels a := by
  cases a with
  | run k io room =>
    unfold Sys.Spares at h
    unfold Sys.SparesModels
    dsimp only at h ⊢
    have hv := hi.valid k
    cases hpc : s.pc k with
    | writePiece c leaf =>
      rw [hpc] at h hv
      cases htag : leaf.tag with
      | none => exact htag
      | some q => exact absurd (.inl (hv.readOnly q htag)) h.1
    | _ => trivial
  | _ => trivial

/-- Such a piece goes to a frame of the rest of the kernel. -/
theorem pinned_of_writePiece (hi : Inv s) {c : CopyTo} {leaf : Leaf (Option PageId)}
    (hpc : s.pc k = .writePiece c leaf) (htag : leaf.tag = none) : leaf.frame ∈ s.pinned := by
  have hl : s.LeafValid leaf := by
    have hv := hi.valid k
    rwa [hpc] at hv
  exact hl.pinned htag

theorem Sys.SparesModels.writesUsed (hi : Inv s) {a : Act} (h : s.SparesModels a) : s.WritesUsed a := by
  cases a with
  | run k io room =>
    unfold Sys.SparesModels at h
    unfold Sys.WritesUsed
    dsimp only at h ⊢
    cases hpc : s.pc k with
    | writePiece c leaf =>
      rw [hpc] at h
      exact hi.owned.used .pinned _ (pinned_of_writePiece hi hpc h)
    | _ => trivial
  | _ => trivial

theorem Faithful.writePiece (h : s.Faithful disk) (hi : Inv s) {c : CopyTo}
    {leaf : Leaf (Option PageId)} (hpc : s.pc k = .writePiece c leaf) (htag : leaf.tag = none) :
    (s.writePiece k c leaf).Faithful disk := by
  have hl : s.LeafValid leaf := by
    have hv := hi.valid k
    rwa [hpc] at hv
  obtain ⟨page, hwrite⟩ := write_leaf s.mem hl (c.uva + c.done)
    ((c.data.drop c.done).take (chunk c.uva c.data.length c.done))
  refine Faithful.kept h hi (.refl _) (fun q f hq => ?_) fun q f hq => ?_
  · refine held_update (p := .copyTo _) rfl rfl (fun _ _ hp => ?_) hq
    exact .inl hp
  · show s.mem.write _ _ f = s.mem f
    rw [hwrite, Function.update_of_ne (hq.ne hi (.inr (pinned_of_writePiece hi hpc htag)))]

theorem faithful_advance (h : s.Faithful disk) (hi : Inv s) {io : ℕ → Bool} {room : ℕ}
    (hspares : s.SparesModels (.run k io room)) (hs : s.advance disk k io room (s.pc k) = some s') :
    s'.Faithful disk := by
  unfold Sys.SparesModels at hspares
  dsimp only at hspares
  cases hpc : s.pc k with
  | user => rw [hpc] at hs; cases hs
  | faulting c => rw [hpc] at hs; cases hs; exact Faithful.lookUp h hi c
  | claimed c => rw [hpc] at hs; cases hs; exact Faithful.readIn h hi c io
  | failed c => rw [hpc] at hs; cases hs; exact Faithful.giveUp h hi hpc
  | loaded c frame => rw [hpc] at hs; cases hs; exact Faithful.publish h hi hpc
  | mapping c frame => rw [hpc] at hs; cases hs; exact Faithful.mapInto h hi c frame room
  | copyFrom c =>
    rw [hpc] at hs
    cases hs
    unfold Sys.copyFromHead
    split_ifs
    · split
      · exact Faithful.goto (p := .user) h hi rfl rfl rfl rfl
      · exact Faithful.goto (p := .copyPiece c _) h hi rfl rfl rfl rfl
    · exact Faithful.goto (p := .user) h hi rfl rfl rfl rfl
  | copyPiece c leaf =>
    rw [hpc] at hs
    cases hs
    exact Faithful.goto (p := .copyFrom _) h hi rfl rfl rfl rfl
  | copyTo c =>
    rw [hpc] at hs
    cases hs
    unfold Sys.copyToHead
    split_ifs
    · split
      · exact Faithful.goto (p := .user) h hi rfl rfl rfl rfl
      · exact Faithful.goto (p := .writePiece c _) h hi rfl rfl rfl rfl
    · exact Faithful.goto (p := .user) h hi rfl rfl rfl rfl
  | writePiece c leaf =>
    rw [hpc] at hs hspares
    cases hs
    exact Faithful.writePiece h hi hpc hspares

/-- A step that moves no thread. -/
theorem Faithful.environment (h : s.Faithful disk) (hi : Inv s) (hpc : s'.pc = s.pc)
    (hfiles : SameFiles s.store s'.store)
    (hpages : ∀ (q : PageId) f, s'.store.pageAt q.id q.index = some (.resident f) →
      s.store.pageAt q.id q.index = some (.resident f))
    (hmem : ∀ q f, s.Held q f → s'.mem f = s.mem f) : s'.Faithful disk :=
  Faithful.kept h hi hfiles (fun q f hq => hq.imp (hpages q f) fun hj => hpc ▸ hj) hmem

/-- A step that writes to no page of a model keeps every such page as it is on flash. -/
theorem faithful_step (h : s.Faithful disk) (hi : Inv s) {a : Act} (hspares : s.SparesModels a)
    (hs : s.step disk a = some s') : s'.Faithful disk := by
  cases a with
  | run k io room => exact faithful_advance h hi hspares hs
  | create =>
    cases hs
    exact Faithful.environment h hi rfl (.refl _) (fun _ _ hf => hf) fun _ _ _ => rfl
  | openModel start size io =>
    cases hs
    cases hh : hashFile (readSector disk io) start size with
    | none => exact h
    | some hash =>
      refine Faithful.environment h hi rfl (fun id m hm => ?_) (fun q f hf => ?_) fun _ _ _ => rfl
      · obtain ⟨refs, hm'⟩ := s.store.model_enter hash start size hm
        exact ⟨_, hm', rfl, rfl⟩
      · rcases s.store.pageAt_enter hash start size hf with hold | ⟨habsent, -⟩
        · exact hold
        · cases habsent
  | modelMap pid id uva =>
    rw [Sys.step] at hs
    split_ifs at hs
    cases hs
    unfold Sys.modelMap Store.attach
    split_ifs
    · exact h
    · cases hm : s.store.model id with
      | none => exact h
      | some m =>
        refine Faithful.environment h hi rfl (.modify (g := Model.attached ⟨pid, uva⟩) (fun _ => rfl)
          (fun _ => rfl) (fun _ => rfl) id) (fun q f hf => ?_) fun _ _ _ => rfl
        exact (Store.pageAt_modify (g := Model.attached ⟨pid, uva⟩) (fun _ => rfl) (fun _ => rfl) id q.id
          q.index).symm.trans hf
  | load k pid va =>
    rw [Sys.step] at hs
    split_ifs at hs
    cases hs
    unfold Sys.load
    split
    · exact Faithful.goto (p := .user) h hi rfl rfl rfl rfl
    · split
      · exact Faithful.goto (p := .user) h hi rfl rfl rfl rfl
      · exact Faithful.goto (p := .faulting _) h hi rfl rfl rfl rfl
  | copyFrom k pid uva len =>
    rw [Sys.step] at hs
    split_ifs at hs
    · cases hs
      exact Faithful.goto (p := .user) h hi rfl rfl rfl rfl
    · cases hs
      exact Faithful.goto (p := .copyFrom _) h hi rfl rfl rfl rfl
  | copyTo k pid uva data =>
    rw [Sys.step] at hs
    split_ifs at hs
    cases hs
    exact Faithful.goto (p := .copyTo _) h hi rfl rfl rfl rfl
  | reclaim want => cases hs; exact Faithful.reclaim h hi want
  | take =>
    rw [Sys.step] at hs
    split at hs <;>
    · cases hs
      exact Faithful.environment h hi rfl (.refl _) (fun _ _ hf => hf) fun _ _ _ => rfl
  | write frame page =>
    rw [Sys.step] at hs
    split_ifs at hs with hf
    cases hs
    exact Faithful.environment h hi rfl (.refl _) (fun _ _ hf => hf) fun q f hq =>
      Function.update_of_ne (hq.ne hi hf) _ _
  | release frame =>
    rw [Sys.step] at hs
    split_ifs at hs with hf
    cases hs
    obtain ⟨-, -, -, hmem⟩ := hi.frames.free (hi.owned.used .others frame hf) rfl
    exact Faithful.environment h hi rfl (.refl _) (fun _ _ hf => hf) fun q f hq =>
      hmem f (hq.ne hi (.inl hf))
  | map pid va frame perm room =>
    rw [Sys.step] at hs
    split_ifs at hs
    cases hs
    exact Faithful.environment h hi rfl (.refl _) (fun _ _ hf => hf) fun _ _ _ => rfl

/-! ## Runs -/

theorem advance_written {io : ℕ → Bool} {room : ℕ} (hs : s.advance disk k io room (s.pc k) = some s') :
    (∀ c leaf, s.pc k ≠ .writePiece c leaf) ∧ s'.written = s.written ∨
    ∃ c leaf, s.pc k = .writePiece c leaf ∧ s'.written = (leaf, s.spaces c.pid) :: s.written := by
  cases hpc : s.pc k with
  | user => rw [hpc] at hs; cases hs
  | faulting c =>
    rw [hpc] at hs
    cases hs
    refine .inl ⟨nofun, ?_⟩
    unfold Sys.lookUp
    split <;> rfl
  | claimed c =>
    rw [hpc] at hs
    cases hs
    refine .inl ⟨nofun, ?_⟩
    unfold Sys.readIn
    split
    · rfl
    · split
      · rfl
      · split <;> rfl
  | failed c => rw [hpc] at hs; cases hs; exact .inl ⟨nofun, rfl⟩
  | loaded c frame =>
    rw [hpc] at hs
    cases hs
    refine .inl ⟨nofun, ?_⟩
    unfold Sys.publish
    split <;> rfl
  | mapping c frame =>
    rw [hpc] at hs
    cases hs
    refine .inl ⟨nofun, ?_⟩
    unfold Sys.mapInto
    split_ifs
    · dsimp only
      split <;> rfl
    · rfl
  | copyFrom c =>
    rw [hpc] at hs
    cases hs
    refine .inl ⟨nofun, ?_⟩
    unfold Sys.copyFromHead
    split_ifs
    · split <;> rfl
    · rfl
  | copyPiece c leaf => rw [hpc] at hs; cases hs; exact .inl ⟨nofun, rfl⟩
  | copyTo c =>
    rw [hpc] at hs
    cases hs
    refine .inl ⟨nofun, ?_⟩
    unfold Sys.copyToHead
    split_ifs
    · split <;> rfl
    · rfl
  | writePiece c leaf => rw [hpc] at hs; cases hs; exact .inr ⟨c, leaf, rfl, rfl⟩

/-- What a step has written through: nothing, but for a piece of a copy. -/
theorem step_written (hi : Inv s) {a : Act} (hs : s.step disk a = some s') :
    s.Spares a ∧ s'.written = s.written ∨
    ∃ leaf space, s'.written = (leaf, space) :: s.written ∧ (s.Spares a ↔ Spared leaf space) := by
  cases a with
  | run k io room =>
    unfold Sys.Spares
    dsimp only
    rcases advance_written hs with ⟨hpc, hsame⟩ | ⟨c, leaf, hpc, hnew⟩
    · refine .inl ⟨?_, hsame⟩
      split
      · exact absurd ‹_› (hpc _ _)
      · trivial
    · rw [hpc]
      exact .inr ⟨leaf, _, hnew, .rfl⟩
  | create => cases hs; exact .inl ⟨trivial, rfl⟩
  | openModel start size io => cases hs; exact .inl ⟨trivial, by split <;> rfl⟩
  | modelMap pid id uva =>
    rw [Sys.step] at hs
    split_ifs at hs
    cases hs
    refine .inl ⟨trivial, ?_⟩
    unfold Sys.modelMap
    split_ifs
    · rfl
    · split <;> rfl
  | load k pid va =>
    rw [Sys.step] at hs
    split_ifs at hs
    cases hs
    refine .inl ⟨trivial, ?_⟩
    unfold Sys.load
    split
    · rfl
    · split <;> rfl
  | copyFrom k pid uva len =>
    rw [Sys.step] at hs
    split_ifs at hs <;>
    · cases hs
      exact .inl ⟨trivial, rfl⟩
  | copyTo k pid uva data =>
    rw [Sys.step] at hs
    split_ifs at hs
    cases hs
    exact .inl ⟨trivial, rfl⟩
  | reclaim want =>
    cases hs
    exact .inl ⟨trivial, reclaim_induct (motive := fun t => t.written = s.written) hi.numbered
      (fun _ _ _ _ _ ht _ _ => ht) rfl want⟩
  | take =>
    rw [Sys.step] at hs
    split at hs <;>
    · cases hs
      exact .inl ⟨trivial, rfl⟩
  | write frame page =>
    rw [Sys.step] at hs
    split_ifs at hs
    cases hs
    exact .inl ⟨trivial, rfl⟩
  | release frame =>
    rw [Sys.step] at hs
    split_ifs at hs
    cases hs
    exact .inl ⟨trivial, rfl⟩
  | map pid va frame perm room =>
    rw [Sys.step] at hs
    split_ifs at hs
    cases hs
    exact .inl ⟨trivial, rfl⟩

theorem clean_step (hi : Inv s) (hf : s.Faithful disk) (hc : s.Clean disk) {a : Act}
    (hs : s.step disk a = some s') : s'.Clean disk ↔ s.Spares a := by
  have hweights : s.Spares a → ∀ id index frame m, s'.store.model id = some m →
      s'.store.pageAt id index = some (.resident frame) →
      s'.mem frame = filePage disk m.startSector m.size index := fun hspares id index frame m hm hpage =>
    faithful_step hf hi (hspares.sparesModels hi) hs ⟨id, index⟩ frame m (.inl hpage) hm
  rcases step_written hi hs with ⟨hspares, hsame⟩ | ⟨leaf, space, hnew, hspared⟩
  · exact iff_of_true ⟨hsame ▸ hc.written, hweights hspares⟩ hspares
  · refine ⟨fun h => hspared.mpr (h.written (leaf, space) (hnew ▸ List.mem_cons_self)),
      fun hspares => ⟨?_, hweights hspares⟩⟩
    rw [hnew]
    exact List.forall_mem_cons.mpr ⟨hspared.mp hspares, hc.written⟩

end

/-- In a run the kernel writes to no frame that is mapped into the process without leave to write, and
so every page of a model is as it is on flash, exactly when each piece of a copy goes to an entry for
writing. -/
theorem clean_iff (disk : Disk) {s : Sys} (hs : s.Init) (acts : List Act) :
    Run.Throughout (Sys.step disk) (Sys.Clean disk) s acts ↔
      Run.Meets (Sys.step disk) Sys.Spares s acts := by
  have hnone : ∀ id, s.store.model id = none := by
    intro id
    rw [hs.store]
    rfl
  refine Run.throughout_iff_meets (fun s => Inv s ∧ s.Faithful disk)
    (fun s a s' hi hspares hstep => ⟨hi.1.step ((hspares.sparesModels hi.1).writesUsed hi.1) hstep,
      faithful_step hi.2 hi.1 (hspares.sparesModels hi.1) hstep⟩)
    (fun s a s' hi hc hstep => clean_step hi.1 hi.2 hc hstep) (fun s a _ hstep => ?_)
    ⟨hs.inv, fun q f m _ hm => ?_⟩ ⟨fun w hw => ?_, fun id index frame m hm => ?_⟩ acts
  · cases a with
    | run k io room =>
      unfold Sys.Spares
      dsimp only
      split
      · rename_i c leaf hpc
        rw [Sys.step, hpc] at hstep
        cases hstep
      · trivial
    | _ => trivial
  · rw [hnone] at hm
    cases hm
  · rw [hs.written] at hw
    cases hw
  · rw [hnone] at hm
    cases hm

/-- A process loads a byte of its model, and then receives a message at that place. -/
def demoReceive : List Act :=
  [.create, .openModel 64 600 fun _ => true, .modelMap 0 1 0, .load 0 0 8, .run 0 (fun _ => true) 1,
    .run 0 (fun _ => true) 1, .run 0 (fun _ => true) 1, .run 0 (fun _ => true) 1, .copyTo 0 0 8 [0xff],
    .run 0 (fun _ => true) 1]

theorem clean_iff_demoReceive :
    Run.Throughout (Sys.step demoDisk) (Sys.Clean demoDisk) demoBoot demoReceive ↔
      Run.Meets (Sys.step demoDisk) Sys.Spares demoBoot demoReceive :=
  clean_iff demoDisk init_demoBoot demoReceive

/-- The kernel writes over the weights: every other process of the model reads the message. -/
theorem weights_overwritten : ∃ s,
    Run.exec (Sys.step demoDisk) demoBoot (demoReceive ++ [.run 0 (fun _ => true) 1]) = some s ∧
    s.store.pageAt 1 0 = some (.resident 0x1000) ∧
    (s.mem 0x1000).get ⟨8, by decide⟩ = 0xff ∧ fileByte demoDisk 64 600 8 = 0xa5 ∧
    ¬s.Clean demoDisk := by
  have hrun : (Run.exec (Sys.step demoDisk) demoBoot demoReceive).map (fun s =>
      (s.pc 0, s.store.pageAt 1 0)) =
      some (.writePiece ⟨0, 8, [0xff], 0⟩ ⟨0x1000, .UserReadOnly, some ⟨1, 0⟩⟩,
        some (.resident 0x1000)) := by
    rfl
  obtain ⟨s, hs, hstate⟩ := Option.map_eq_some_iff.mp hrun
  obtain ⟨hpc, hpage⟩ := Prod.mk.inj hstate
  refine ⟨s.writePiece 0 ⟨0, 8, [0xff], 0⟩ ⟨0x1000, .UserReadOnly, some ⟨1, 0⟩⟩, ?_, hpage, ?_,
    by decide, fun hc => ?_⟩
  · rw [Run.exec_append, hs, Option.bind_some, Run.exec, Sys.step, hpc]
    rfl
  · have hlt : 8 < PAGE_SIZE := by decide
    show (Bytes.blit (s.mem 0x1000) 8 #v[0xff])[8] = 0xff
    rw [Bytes.getElem_blit _ _ _ hlt]
    rfl
  · exact (hc.written _ List.mem_cons_self).1 (.inl rfl)

end JungeyOs.ModelStore
