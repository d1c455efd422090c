import JungeyOs.ModelStore.Invariant

/-!
# What is mapped for a model

A fault finds or publishes the frame of its page under the store lock and maps it after it has let go
of the lock; `reclaim` unmaps the page and frees its frame under the lock. In between the frame can go
away.

Results:
* `Sys.Agrees.reclaim`: `reclaim` leaves no entry of a page that it takes.
* `resident_step`: only `reclaim` takes a page.
* `agrees_mapInto`: when a `map_into` installs what the model has.
* `agrees_iff`: in a run of faults and `reclaim` every entry of a model's page maps the frame that the
  model has there exactly when each `map_into` maps a frame that the model still has there.
* `reclaimed_mapped`: a run in which a frame is mapped that `reclaim` has freed.
-/

namespace JungeyOs.ModelStore

open Mm

/-! ## The claim -/

namespace Sys

/-- A fault's entry maps the frame that the model has for the page, and no frame that is free is
mapped. -/
structure Agrees (s : Sys) : Prop where
  resident : ∀ pid page leaf p, s.spaces pid page = some leaf → leaf.tag = some p →
    s.store.pageAt p.id p.index = some (.resident leaf.frame)
  allocated : ∀ pid page leaf, s.spaces pid page = some leaf →
    leaf.frame ∉ s.frames.freeFrames s.mem

/-- A `map_into` that will write its entry finds the frame still with its page. -/
def Current (s : Sys) : Act → Prop
  | .run k _ room =>
    match s.pc k with
    | .mapping c frame => 0 < room → s.store.pageAt c.id c.index = some (.resident frame)
    | _ => True
  | _ => True

/-- The system without copies to user memory. -/
def pagingStep (disk : Disk) (s : Sys) : Act → Option Sys
  | .copyTo .. => none
  | a => s.step disk a

end Sys

section

variable {s s' : Sys} {k : ℕ} {p : Pc} {f : ℕ}

/-! ## No copies -/

/-- No thread copies to user memory. -/
def Sys.NoCopies (s : Sys) : Prop := ∀ k, (s.pc k).copying = none

theorem Sys.NoCopies.update (h : s.NoCopies) (hp : p.copying = none)
    (hpc : s'.pc = Function.update s.pc k p) : s'.NoCopies := by
  intro j
  rw [hpc]
  by_cases hj : j = k
  · rw [hj, Function.update_self, hp]
  · rw [Function.update_of_ne hj, h j]

theorem Sys.NoCopies.step (h : s.NoCopies) (hi : Inv s) {disk : Disk} {a : Act}
    (hs : s.pagingStep disk a = some s') : s'.NoCopies := by
  cases a with
  | create => cases hs; exact h
  | openModel start size io =>
    cases hs
    split
    · exact h
    · exact h
  | modelMap pid id uva =>
    simp only [Sys.pagingStep, Sys.step] at hs
    split_ifs at hs
    cases hs
    unfold Sys.modelMap
    split_ifs
    · exact h
    · split
      · exact h
      · exact h
  | load k pid va =>
    simp only [Sys.pagingStep, Sys.step] at hs
    split_ifs at hs
    cases hs
    unfold Sys.load
    split
    · exact h.update (p := .user) rfl rfl
    · split
      · exact h.update (p := .user) rfl rfl
      · exact h.update (p := .faulting _) rfl rfl
  | copyFrom k pid uva len =>
    simp only [Sys.pagingStep, Sys.step] at hs
    split_ifs at hs
    · cases hs
      exact h.update (p := .user) rfl rfl
    · cases hs
      exact h.update (p := .copyFrom _) rfl rfl
  | copyTo k pid uva data => cases hs
  | run k io room =>
    obtain ⟨p, hpc, hp⟩ := advance_pc hs
    exact h.update (hp (h k)) hpc
  | reclaim want =>
    cases hs
    intro k
    rw [reclaim_pc hi.numbered]
    exact h k
  | take =>
    simp only [Sys.pagingStep, Sys.step] at hs
    split at hs <;>
    · cases hs
      exact h
  | write frame page =>
    simp only [Sys.pagingStep, Sys.step] at hs
    split_ifs at hs
    cases hs
    exact h
  | release frame =>
    simp only [Sys.pagingStep, Sys.step] at hs
    split_ifs at hs
    cases hs
    exact h
  | map pid va frame perm room =>
    simp only [Sys.pagingStep, Sys.step] at hs
    split_ifs at hs
    cases hs
    exact h

theorem step_of_pagingStep {disk : Disk} {a : Act} (hs : s.pagingStep disk a = some s') :
    s.step disk a = some s' := by
  cases a with
  | copyTo k pid uva data => cases hs
  | _ => exact hs

theorem Sys.NoCopies.writesUsed (h : s.NoCopies) (a : Act) : s.WritesUsed a := by
  unfold Sys.WritesUsed
  split
  · split
    · rename_i k _ _ _ c leaf hpc
      have hk := h k
      rw [hpc] at hk
      cases hk
    · trivial
  · trivial

/-! ## What a step does to the entries of a model's pages -/

theorem Inv.agrees (h : Inv s) (hresident : ∀ pid page leaf q, s.spaces pid page = some leaf →
    leaf.tag = some q → s.store.pageAt q.id q.index = some (.resident leaf.frame)) : s.Agrees := by
  refine ⟨hresident, fun pid page leaf hleaf => ?_⟩
  cases htag : leaf.tag with
  | none => exact (h.owned.used .pinned _ ((h.entries pid page leaf hleaf).pinned htag)).notFree
  | some q => exact (h.owned.used (.page q) _ (hresident pid page leaf q hleaf htag)).notFree

/-- No entry is new, and the pages that have one keep their frames. -/
theorem Sys.Agrees.kept (ha : s.Agrees) (h' : Inv s')
    (hkept : ∀ pid page leaf q, s'.spaces pid page = some leaf → leaf.tag = some q →
      s.spaces pid page = some leaf ∧ (s.store.pageAt q.id q.index = some (.resident leaf.frame) →
        s'.store.pageAt q.id q.index = some (.resident leaf.frame))) : s'.Agrees := by
  refine h'.agrees fun pid page leaf q hleaf htag => ?_
  obtain ⟨hold, hpage⟩ := hkept pid page leaf q hleaf htag
  exact hpage (ha.resident pid page leaf q hold htag)

/-- The entries stay, and every resident page keeps its frame. -/
theorem Sys.Agrees.stays (ha : s.Agrees) (h' : Inv s') (hspaces : s'.spaces = s.spaces)
    (hpages : ∀ (q : PageId) f, s.store.pageAt q.id q.index = some (.resident f) →
      s'.store.pageAt q.id q.index = some (.resident f)) : s'.Agrees :=
  ha.kept h' fun _ _ leaf q hleaf _ => ⟨hspaces ▸ hleaf, hpages q leaf.frame⟩

/-- A round of `fault` takes no page. -/
theorem resident_lookUp {c q : PageId} {frame : ℕ} {pid va : ℕ}
    (hf : s.store.pageAt q.id q.index = some (.resident frame)) :
    (s.lookUp k ⟨c, pid, va⟩).store.pageAt q.id q.index = some (.resident frame) := by
  have hfaulted : ∀ id i, (s.store.modify c.id Model.faulted).pageAt id i = s.store.pageAt id i :=
    Store.pageAt_modify (g := Model.faulted) (fun _ => rfl) (fun _ => rfl) c.id
  unfold Sys.lookUp
  rcases s.store.lookUp_cases c.id c.index with ⟨-, hl⟩ | ⟨frame, -, hl⟩ | ⟨-, hl⟩ | ⟨hpage, hl⟩ <;>
    rw [hl]
  · exact hf
  · exact (hfaulted q.id q.index).trans hf
  · exact hf
  · refine (pageAt_set (q := c) ((hfaulted c.id c.index).trans hpage) q _).mpr
      (.inr ⟨?_, (hfaulted q.id q.index).trans hf⟩)
    rintro rfl
    rw [hpage] at hf
    cases hf

/-- A page that is being read gets another state, and no other page is taken. -/
theorem resident_set (hi : Inv s) {c q : PageId} {x : PageState} {frame : ℕ}
    (hclaim : (s.pc k).claim = some c) (hf : s.store.pageAt q.id q.index = some (.resident frame)) :
    (s.store.setPage c.id c.index x).pageAt q.id q.index = some (.resident frame) := by
  have hloading := hi.claims.used k c hclaim
  refine (pageAt_set hloading q _).mpr (.inr ⟨?_, hf⟩)
  rintro rfl
  rw [hloading] at hf
  cases hf

/-- A thread takes no page. -/
theorem resident_advance (hi : Inv s) {disk : Disk} {io : ℕ → Bool} {room : ℕ}
    (hs : s.advance disk k io room (s.pc k) = some s') {q : PageId} {frame : ℕ}
    (hf : s.store.pageAt q.id q.index = some (.resident frame)) :
    s'.store.pageAt q.id q.index = some (.resident frame) := by
  cases hpc : s.pc k with
  | user => rw [hpc] at hs; cases hs
  | faulting c => rw [hpc] at hs; cases hs; exact resident_lookUp hf
  | claimed c =>
    rw [hpc] at hs
    cases hs
    unfold Sys.readIn
    split
    · exact hf
    · split
      · exact hf
      · split <;> exact hf
  | failed c =>
    rw [hpc] at hs
    cases hs
    exact resident_set (k := k) (c := c.toPageId) hi (by rw [hpc]; rfl) hf
  | loaded c frame =>
    rw [hpc] at hs
    cases hs
    unfold Sys.publish
    split
    · exact hf
    · exact resident_set (k := k) (c := c.toPageId) hi (by rw [hpc]; rfl) hf
  | mapping c frame =>
    rw [hpc] at hs
    cases hs
    unfold Sys.mapInto
    split_ifs
    · dsimp only
      split <;> exact hf
    · exact hf
  | copyFrom c =>
    rw [hpc] at hs
    cases hs
    unfold Sys.copyFromHead
    split_ifs
    · split <;> exact hf
    · exact hf
  | copyPiece c leaf => rw [hpc] at hs; cases hs; exact hf
  | copyTo c =>
    rw [hpc] at hs
    cases hs
    unfold Sys.copyToHead
    split_ifs
    · split <;> exact hf
    · exact hf
  | writePiece c leaf => rw [hpc] at hs; cases hs; exact hf

theorem Sys.Agrees.evict (ha : s.Agrees) (h : Inv s) {q : PageId} {frame : ℕ} {mappings : List Mapping}
    (hpage : s.store.pageAt q.id q.index = some (.resident frame))
    (hcovers : Covers s.store q.id mappings) : (s.evict q.id mappings q.index frame).Agrees := by
  refine ha.kept (h.evict hpage mappings) fun pid page leaf r hleaf htag => ?_
  rcases unmapAll_cases s.procs q.index mappings s.spaces pid page with ⟨-, hnone⟩ | ⟨hout, hsame⟩
  · exact absurd (hnone.symm.trans hleaf) nofun
  · have hold : s.spaces pid page = some leaf := hsame.symm.trans hleaf
    refine ⟨hold, fun hr => (pageAt_evicted hpage r _).mpr (.inr ⟨?_, hr⟩)⟩
    -- the entries of the page itself are at the places where the model is mapped
    rintro rfl
    have hentry := h.entries pid page leaf hold
    obtain ⟨va, hd, hva⟩ := hentry.slot r htag
    obtain ⟨base, hmaps, halign⟩ := h.demand_slot hd
    refine hout hentry.live base (hcovers pid base hmaps) ?_
    rw [hva, ← pageOf_pageAlignDown, halign]

theorem Sys.Agrees.reclaim (ha : s.Agrees) (h : Inv s) (want : ℕ) : (s.reclaim want).2.Agrees :=
  (reclaim_induct (motive := fun t => Inv t ∧ t.Agrees) h.numbered
    (fun _ id mappings index _ ht hcovers hpage => ⟨ht.1.evict (q := ⟨id, index⟩) hpage mappings,
      ht.2.evict (q := ⟨id, index⟩) ht.1 hpage hcovers⟩) ⟨h, ha⟩ want).2

/-- What `map_into` installs is what the model has exactly when the frame is still with its page. -/
theorem agrees_mapInto (h : Inv s) (ha : s.Agrees) {c : Fault} {frame room : ℕ}
    (hpc : s.pc k = .mapping c frame) (h' : Inv (s.mapInto k c frame room)) :
    (s.mapInto k c frame room).Agrees ↔
      (0 < room → s.store.pageAt c.id c.index = some (.resident frame)) := by
  obtain ⟨hc, haligned⟩ : s.FaultValid c ∧ PAGE_SIZE ∣ frame := by
    have hv := h.valid k
    rwa [hpc] at hv
  -- whether it returns `true` or `false`, only the one address space changes
  have hmapped : ∃ t : Sys, s.mapInto k c frame room = t ∧ t.store = s.store ∧
      t.spaces = (s.setSpace c.pid ((s.spaces c.pid).map (pageAlignDown c.va) frame 1 .UserReadOnly
        (some c.toPageId) room).2).spaces := by
    refine ⟨_, rfl, ?_⟩
    unfold Sys.mapInto
    rw [if_pos hc.live]
    dsimp only
    split <;> exact ⟨rfl, rfl⟩
  obtain ⟨t, ht, hstore, hspaces⟩ := hmapped
  rw [ht] at h' ⊢
  constructor
  · intro ha' hroom
    have hfirst : ∃ j < 1, ((s.spaces c.pid).map (pageAlignDown c.va) frame 1 .UserReadOnly
        (some c.toPageId) room).2 (pageOf (pageAlignDown c.va)) =
          some ⟨frame + j * PAGE_SIZE, .UserReadOnly, some c.toPageId⟩ :=
      PageMap.map_first _ _ _ (Nat.mul_mod_left _ _) (Nat.mod_eq_zero_of_dvd haligned) Nat.one_pos hroom
    obtain ⟨j, hj, hleaf⟩ := hfirst
    obtain rfl : j = 0 := by omega
    rw [Nat.zero_mul, Nat.add_zero] at hleaf
    have hentry : t.spaces c.pid (pageOf (pageAlignDown c.va)) =
        some ⟨frame, .UserReadOnly, some c.toPageId⟩ := by
      rw [hspaces, Sys.setSpace]
      dsimp only
      rw [Function.update_self, hleaf]
    rw [← hstore]
    exact ha'.resident c.pid _ _ c.toPageId hentry rfl
  · intro hcurrent
    refine h'.agrees fun pid page leaf q hleaf htag => ?_
    rw [hspaces] at hleaf
    rw [hstore]
    rcases setSpace_some hleaf with ⟨rfl, hnew⟩ | ⟨-, hold⟩
    · rcases PageMap.map_one hnew with ⟨hroom, -, -, rfl⟩ | hold
      · cases htag
        exact hcurrent hroom
      · exact ha.resident _ page leaf q hold htag
    · exact ha.resident pid page leaf q hold htag

/-- Only `map_into` changes the entries. -/
theorem advance_spaces {disk : Disk} {io : ℕ → Bool} {room : ℕ}
    (hs : s.advance disk k io room (s.pc k) = some s') (hmap : ∀ c frame, s.pc k ≠ .mapping c frame) :
    s'.spaces = s.spaces := by
  cases hpc : s.pc k with
  | user => rw [hpc] at hs; cases hs
  | faulting c =>
    rw [hpc] at hs
    cases hs
    unfold Sys.lookUp
    split <;> rfl
  | claimed c =>
    rw [hpc] at hs
    cases hs
    unfold Sys.readIn
    split
    · rfl
    · split
      · rfl
      · split <;> rfl
  | failed c => rw [hpc] at hs; cases hs; rfl
  | loaded c frame =>
    rw [hpc] at hs
    cases hs
    unfold Sys.publish
    split <;> rfl
  | mapping c frame => exact absurd hpc (hmap c frame)
  | copyFrom c =>
    rw [hpc] at hs
    cases hs
    unfold Sys.copyFromHead
    split_ifs
    · split <;> rfl
    · rfl
  | copyPiece c leaf => rw [hpc] at hs; cases hs; rfl
  | copyTo c =>
    rw [hpc] at hs
    cases hs
    unfold Sys.copyToHead
    split_ifs
    · split <;> rfl
    · rfl
  | writePiece c leaf => rw [hpc] at hs; cases hs; rfl

theorem agrees_advance (h : Inv s) (ha : s.Agrees) {disk : Disk} {io : ℕ → Bool} {room : ℕ}
    (hs : s.advance disk k io room (s.pc k) = some s') (h' : Inv s') :
    s'.Agrees ↔ s.Current (.run k io room) := by
  unfold Sys.Current
  dsimp only
  by_cases hmap : ∃ c frame, s.pc k = .mapping c frame
  · obtain ⟨c, frame, hpc⟩ := hmap
    rw [hpc] at hs ⊢
    cases hs
    exact agrees_mapInto h ha hpc h'
  · have hother : ∀ c frame, s.pc k ≠ .mapping c frame := fun c frame hpc => hmap ⟨c, frame, hpc⟩
    refine iff_of_true (ha.stays h' (advance_spaces hs hother) fun _ _ => resident_advance h hs) ?_
    cases hpc : s.pc k with
    | mapping c frame => exact absurd hpc (hother c frame)
    | _ => trivial

/-- Only `reclaim` takes a page. -/
theorem resident_step (hi : Inv s) {disk : Disk} {a : Act} (hno : a.reclaims = false)
    (hs : s.step disk a = some s') {q : PageId} {frame : ℕ}
    (hf : s.store.pageAt q.id q.index = some (.resident frame)) :
    s'.store.pageAt q.id q.index = some (.resident frame) := by
  cases a with
  | run k io room => exact resident_advance hi hs hf
  | reclaim want => cases hno
  | create => cases hs; exact hf
  | openModel start size io =>
    cases hs
    split
    · exact hf
    · rename_i hash _
      obtain ⟨m, hm, hindex⟩ := Option.bind_eq_some_iff.mp hf
      obtain ⟨refs, hm'⟩ := s.store.model_enter hash start size hm
      exact Option.bind_eq_some_iff.mpr ⟨_, hm', hindex⟩
  | modelMap pid id uva =>
    rw [Sys.step] at hs
    split_ifs at hs
    cases hs
    unfold Sys.modelMap Store.attach
    split_ifs
    · exact hf
    · cases s.store.model id with
      | none => exact hf
      | some m =>
        exact (Store.pageAt_modify (g := Model.attached ⟨pid, uva⟩) (fun _ => rfl) (fun _ => rfl) id q.id
          q.index).trans hf
  | load k pid va =>
    rw [Sys.step] at hs
    split_ifs at hs
    cases hs
    unfold Sys.load
    split
    · exact hf
    · split <;> exact hf
  | copyFrom k pid uva len =>
    rw [Sys.step] at hs
    split_ifs at hs <;>
    · cases hs
      exact hf
  | copyTo k pid uva data =>
    rw [Sys.step] at hs
    split_ifs at hs
    cases hs
    exact hf
  | take =>
    rw [Sys.step] at hs
    split at hs <;>
    · cases hs
      exact hf
  | write frame page =>
    rw [Sys.step] at hs
    split_ifs at hs
    cases hs
    exact hf
  | release frame =>
    rw [Sys.step] at hs
    split_ifs at hs
    cases hs
    exact hf
  | map pid va frame perm room =>
    rw [Sys.step] at hs
    split_ifs at hs
    cases hs
    exact hf

/-- A step that is not of a thread, and in which no page is mapped or taken. -/
def Act.still : Act → Bool
  | .run _ _ _ => false
  | .reclaim _ => false
  | .map _ _ _ _ _ => false
  | _ => true

theorem step_spaces {disk : Disk} {a : Act} (hstill : a.still = true) (hs : s.step disk a = some s') :
    s'.spaces = s.spaces := by
  cases a with
  | run k io room => cases hstill
  | reclaim want => cases hstill
  | map pid va frame perm room => cases hstill
  | create => cases hs; rfl
  | openModel start size io =>
    cases hs
    split <;> rfl
  | modelMap pid id uva =>
    rw [Sys.step] at hs
    split_ifs at hs
    cases hs
    unfold Sys.modelMap
    split_ifs
    · rfl
    · split <;> rfl
  | load k pid va =>
    rw [Sys.step] at hs
    split_ifs at hs
    cases hs
    unfold Sys.load
    split
    · rfl
    · split <;> rfl
  | copyFrom k pid uva len =>
    rw [Sys.step] at hs
    split_ifs at hs <;>
    · cases hs
      rfl
  | copyTo k pid uva data =>
    rw [Sys.step] at hs
    split_ifs at hs
    cases hs
    rfl
  | take =>
    rw [Sys.step] at hs
    split at hs <;>
    · cases hs
      rfl
  | write frame page =>
    rw [Sys.step] at hs
    split_ifs at hs
    cases hs
    rfl
  | release frame =>
    rw [Sys.step] at hs
    split_ifs at hs
    cases hs
    rfl

theorem agrees_step (h : Inv s) (ha : s.Agrees) {disk : Disk} {a : Act} (h' : Inv s')
    (hs : s.step disk a = some s') : s'.Agrees ↔ s.Current a := by
  cases a with
  | run k io room => exact agrees_advance h ha hs h'
  | reclaim want => cases hs; exact iff_of_true (ha.reclaim h want) trivial
  | map pid va frame perm room =>
    rw [Sys.step] at hs
    split_ifs at hs
    cases hs
    refine iff_of_true (ha.kept h' fun pid' page leaf q hleaf htag => ⟨?_, fun hf => hf⟩) trivial
    rcases setSpace_some hleaf with ⟨rfl, hnew⟩ | ⟨-, hold⟩
    · rcases PageMap.map_one hnew with ⟨-, -, -, rfl⟩ | hold
      · cases htag
      · exact hold
    · exact hold
  | _ =>
    have hspaces : s'.spaces = s.spaces := step_spaces rfl hs
    exact iff_of_true (ha.stays h' hspaces fun _ _ => resident_step h rfl hs) trivial

end

/-! ## Runs -/

theorem Sys.Init.agrees {s : Sys} (h : s.Init) : s.Agrees := by
  refine ⟨fun pid page leaf q hleaf => ?_, fun pid page leaf hleaf => ?_⟩ <;>
  · rw [h.spaces] at hleaf
    cases hleaf

/-- In a run of faults and `reclaim`, every entry of a model's page maps the frame that the model has
there, and no frame that is free is mapped, exactly when each `map_into` finds the frame still with its
page. -/
theorem agrees_iff (disk : Disk) {s : Sys} (hs : s.Init) (acts : List Act) :
    Run.Throughout (Sys.pagingStep disk) Sys.Agrees s acts ↔
      Run.Meets (Sys.pagingStep disk) Sys.Current s acts := by
  have hinv : ∀ s a s', Inv s ∧ s.NoCopies → s.pagingStep disk a = some s' → Inv s' ∧ s'.NoCopies :=
    fun s a s' hi hs => ⟨hi.1.step (hi.2.writesUsed a) (step_of_pagingStep hs), hi.2.step hi.1 hs⟩
  refine Run.throughout_iff_meets (fun s => Inv s ∧ s.NoCopies) (fun s a s' hi _ => hinv s a s' hi)
    (fun s a s' hi ha hs => agrees_step hi.1 ha (hinv s a s' hi hs).1
      (step_of_pagingStep hs)) (fun s a _ hnone => ?_)
    ⟨hs.inv, fun k => by rw [hs.pc]; rfl⟩ hs.agrees acts
  cases a with
  | run k io room =>
    unfold Sys.Current
    dsimp only
    cases hpc : s.pc k with
    | mapping c frame =>
      have hsome : s.pagingStep disk (.run k io room) = some (s.mapInto k c frame room) := by
        show s.advance disk k io room (s.pc k) = _
        rw [hpc, Sys.advance]
      rw [hsome] at hnone
      cases hnone
    | _ => trivial
  | _ => trivial

/-- A process maps a model at 0 and loads a byte of it. -/
def demoLoad : List Act :=
  [.create, .openModel 64 600 fun _ => true, .modelMap 0 1 0, .load 0 0 8, .run 0 (fun _ => true) 1,
    .run 0 (fun _ => true) 1, .run 0 (fun _ => true) 1, .run 0 (fun _ => true) 1, .load 0 0 8]

theorem agrees_iff_demoLoad :
    Run.Throughout (Sys.pagingStep demoDisk) Sys.Agrees demoBoot demoLoad ↔
      Run.Meets (Sys.pagingStep demoDisk) Sys.Current demoBoot demoLoad :=
  agrees_iff demoDisk init_demoBoot demoLoad

/-- `reclaim` takes the page after the fault has published it and before it maps the frame. -/
def demoLate : List Act :=
  [.create, .openModel 64 600 fun _ => true, .modelMap 0 1 0, .load 0 0 8, .run 0 (fun _ => true) 1,
    .run 0 (fun _ => true) 1, .run 0 (fun _ => true) 1, .reclaim 1, .run 0 (fun _ => true) 1]

/-- A frame that `reclaim` has freed is mapped. -/
theorem reclaimed_mapped : ∃ s, Run.exec (Sys.pagingStep demoDisk) demoBoot demoLate = some s ∧
    s.store.pageAt 1 0 = some .absent ∧
    s.spaces 0 0 = some ⟨0x1000, .UserReadOnly, some ⟨1, 0⟩⟩ ∧
    0x1000 ∈ s.frames.freeFrames s.mem ∧ ¬s.Agrees := by
  have hrun : (Run.exec (Sys.pagingStep demoDisk) demoBoot demoLate).map (fun s =>
      (s.store.pageAt 1 0, s.spaces 0 0, s.frames.freeFrames s.mem)) =
      some (some .absent, some ⟨0x1000, .UserReadOnly, some ⟨1, 0⟩⟩, [0x1000]) := by
    rfl
  obtain ⟨s, hs, hstate⟩ := Option.map_eq_some_iff.mp hrun
  obtain ⟨hpage, hrest⟩ := Prod.mk.inj hstate
  obtain ⟨hentry, hfree⟩ := Prod.mk.inj hrest
  have hmem : 0x1000 ∈ s.frames.freeFrames s.mem := hfree ▸ List.mem_singleton.mpr rfl
  exact ⟨s, hs, hpage, hentry, hmem, fun ha => ha.allocated 0 0 _ hentry hmem⟩

end JungeyOs.ModelStore
