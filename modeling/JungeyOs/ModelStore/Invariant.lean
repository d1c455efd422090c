import JungeyOs.Lib.Holdings
import JungeyOs.ModelStore.Faults

/-!
# What the threads rely on in the model store

A fault reads its page into a frame that is its own, and a page that is being read is claimed by one
thread. The entries of an address space are for pages that the process has mapped there, or for frames
that the rest of the kernel has pinned. None of this needs a lock on the page tables.

Results:
* `Inv.step`: what every step keeps that writes to no frame that has been freed.
* `reclaim_induct`: what every page that `reclaim` takes keeps.
* `Inv.demand_slot`: where a page of a model belongs in an address space.
-/

namespace JungeyOs.ModelStore

open Mm

/-! ## The invariant -/

/-- Who can have a frame: a page of a model, a thread that reads a page into it, the rest of the
kernel. -/
inductive Owner
  | page (p : PageId)
  | thread (k : ℕ)
  | others
  | pinned

/-- The frame that the thread has read its page into. -/
def Pc.frame : Pc → Option ℕ
  | .loaded _ frame => some frame
  | _ => none

/-- The page that the thread has claimed. -/
def Pc.claim : Pc → Option PageId
  | .claimed c => some c.toPageId
  | .failed c => some c.toPageId
  | .loaded c _ => some c.toPageId
  | _ => none

/-- The copy to user memory that the thread is in. -/
def Pc.copying : Pc → Option CopyTo
  | .copyTo c => some c
  | .writePiece c _ => some c
  | _ => none

namespace Sys

variable (s : Sys)

def Owns : Owner → ℕ → Prop
  | .page p, f => s.store.pageAt p.id p.index = some (.resident f)
  | .thread k, f => (s.pc k).frame = some f
  | .others, f => f ∈ s.others
  | .pinned, f => f ∈ s.pinned

/-- The fault is for a page that the process has mapped there. -/
structure FaultValid (c : Fault) : Prop where
  live : c.pid < s.procs
  demand : demand (s.vmas c.pid) c.va = some c.toPageId

/-- A leaf entry, whether or not it is still in a page table. -/
structure LeafValid (leaf : Leaf (Option PageId)) : Prop where
  aligned : PAGE_SIZE ∣ leaf.frame
  readOnly : ∀ p, leaf.tag = some p → leaf.perm = .UserReadOnly
  pinned : leaf.tag = none → leaf.frame ∈ s.pinned

/-- A page of a process with its entry. -/
structure EntryValid (pid page : ℕ) (leaf : Leaf (Option PageId)) : Prop extends s.LeafValid leaf where
  live : pid < s.procs
  slot : ∀ p, leaf.tag = some p → ∃ va, demand (s.vmas pid) va = some p ∧ page = pageOf va

end Sys

/-- What a thread relies on. -/
def Pc.Valid (s : Sys) : Pc → Prop
  | .faulting c => s.FaultValid c
  | .claimed c => s.FaultValid c
  | .failed c => s.FaultValid c
  | .loaded c _ => s.FaultValid c
  | .mapping c frame => s.FaultValid c ∧ PAGE_SIZE ∣ frame
  | .copyPiece _ leaf => s.LeafValid leaf
  | .writePiece _ leaf => s.LeafValid leaf
  | _ => True

/-- A region of a process is where it has mapped the model. -/
structure VmaValid (s : Sys) (pid : ℕ) (v : Vma) : Prop where
  aligned : PAGE_SIZE ∣ v.start
  maps : ∀ id, v.kind = .model id → s.store.Maps id pid v.start

structure Inv (s : Sys) : Prop where
  numbered : s.store.Numbered
  frames : s.frames.WF s.mem
  owned : Holdings (s.frames.Used s.mem) s.Owns
  claims : Holdings (fun p => s.store.pageAt p.id p.index = some .loading)
    fun k p => (s.pc k).claim = some p
  vmas : ∀ pid, ∀ v ∈ s.vmas pid, VmaValid s pid v
  entries : ∀ pid page leaf, s.spaces pid page = some leaf → s.EntryValid pid page leaf
  valid : ∀ k, (s.pc k).Valid s

section

variable {s s' : Sys} {k : ℕ} {p : Pc} {f : ℕ}

/-! ## What a step leaves alone -/

/-- What threads and entries rely on. -/
structure Keeps (s s' : Sys) : Prop where
  procs : s.procs ≤ s'.procs
  demand : ∀ pid va q, demand (s.vmas pid) va = some q → demand (s'.vmas pid) va = some q
  pinned : ∀ f ∈ s.pinned, f ∈ s'.pinned

theorem Keeps.fault (h : Keeps s s') {c : Fault} (hc : s.FaultValid c) : s'.FaultValid c :=
  ⟨hc.live.trans_le h.procs, h.demand c.pid c.va _ hc.demand⟩

theorem Keeps.leaf (h : Keeps s s') {leaf : Leaf (Option PageId)} (hl : s.LeafValid leaf) :
    s'.LeafValid leaf :=
  ⟨hl.aligned, hl.readOnly, fun htag => h.pinned _ (hl.pinned htag)⟩

theorem Keeps.entry (h : Keeps s s') {pid page : ℕ} {leaf : Leaf (Option PageId)}
    (hl : s.EntryValid pid page leaf) : s'.EntryValid pid page leaf := by
  refine ⟨h.leaf hl.toLeafValid, hl.live.trans_le h.procs, fun q htag => ?_⟩
  obtain ⟨va, hva, hpage⟩ := hl.slot q htag
  exact ⟨va, h.demand pid va q hva, hpage⟩

theorem Keeps.valid (h : Keeps s s') (hp : p.Valid s) : p.Valid s' := by
  cases p with
  | faulting c => exact h.fault hp
  | claimed c => exact h.fault hp
  | failed c => exact h.fault hp
  | loaded c frame => exact h.fault hp
  | mapping c frame => exact ⟨h.fault hp.1, hp.2⟩
  | copyPiece c leaf => exact h.leaf hp
  | writePiece c leaf => exact h.leaf hp
  | user => trivial
  | copyFrom c => trivial
  | copyTo c => trivial

/-- What a step has to keep. -/
theorem Inv.move (h : Inv s) (hkeeps : Keeps s s') (hnumbered : s'.store.Numbered)
    (hframes : s'.frames.WF s'.mem) (howned : Holdings (s'.frames.Used s'.mem) s'.Owns)
    (hclaims : Holdings (fun q => s'.store.pageAt q.id q.index = some .loading)
      fun j q => (s'.pc j).claim = some q)
    (hvmas : ∀ pid, ∀ v ∈ s'.vmas pid, VmaValid s' pid v)
    (hentries : ∀ pid page leaf, s'.spaces pid page = some leaf →
      s.spaces pid page = some leaf ∨ s'.EntryValid pid page leaf)
    (hpc : ∀ j, s'.pc j = s.pc j ∨ (s'.pc j).Valid s') : Inv s' := by
  refine ⟨hnumbered, hframes, howned, hclaims, hvmas, fun pid page leaf hleaf => ?_, fun j => ?_⟩
  · rcases hentries pid page leaf hleaf with hold | hnew
    · exact hkeeps.entry (h.entries pid page leaf hold)
    · exact hnew
  · rcases hpc j with hold | hnew
    · rw [hold]
      exact hkeeps.valid (h.valid j)
    · exact hnew

/-- A thread goes to `p`, where it has no more than before. -/
theorem update_some {β : Type*} (proj : Pc → Option β) {pc : ℕ → Pc}
    (hp : proj p = none ∨ proj p = proj (pc k)) {j : ℕ} {x : β}
    (h : proj (Function.update pc k p j) = some x) : proj (pc j) = some x := by
  by_cases hj : j = k
  · subst hj
    rw [Function.update_self] at h
    rcases hp with hnone | hsame
    · rw [hnone] at h
      cases h
    · rwa [← hsame]
  · rwa [Function.update_of_ne hj] at h

theorem update_valid (hpc : s'.pc = Function.update s.pc k p) (hp : p.Valid s') (j : ℕ) :
    s'.pc j = s.pc j ∨ (s'.pc j).Valid s' := by
  rw [hpc]
  by_cases hj : j = k
  · rw [hj, Function.update_self]
    exact .inr hp
  · rw [Function.update_of_ne hj]
    exact .inl rfl

/-- The processes and what is pinned stay as they are, and no model is unmapped. -/
structure Stays (s s' : Sys) : Prop where
  procs : s'.procs = s.procs
  vmas : s'.vmas = s.vmas
  pinned : s'.pinned = s.pinned
  numbered : s'.store.Numbered
  maps : ∀ id pid base, s.store.Maps id pid base → s'.store.Maps id pid base

theorem Stays.keeps (h : Stays s s') : Keeps s s' :=
  ⟨h.procs.ge, fun pid va q hq => by rwa [h.vmas], fun f hf => by rwa [h.pinned]⟩

theorem Stays.vmaValid (h : Stays s s') (hi : Inv s) : ∀ pid, ∀ v ∈ s'.vmas pid, VmaValid s' pid v := by
  intro pid v hv
  rw [h.vmas] at hv
  have hold := hi.vmas pid v hv
  exact ⟨hold.aligned, fun id hid => h.maps id pid v.start (hold.maps id hid)⟩

/-- The store stays as it is. -/
theorem Stays.refl (hi : Inv s) (hprocs : s'.procs = s.procs) (hvmas : s'.vmas = s.vmas)
    (hpinned : s'.pinned = s.pinned) (hstore : s'.store = s.store) : Stays s s' :=
  ⟨hprocs, hvmas, hpinned, hstore ▸ hi.numbered, fun _ _ _ h => hstore ▸ h⟩

/-- A step of a thread that leaves every frame and every claim where it is, or drops a claim. -/
theorem Inv.quiet (h : Inv s) (hs : Stays s s') (hpc : s'.pc = Function.update s.pc k p)
    (hpages : ∀ id i, s'.store.pageAt id i = s.store.pageAt id i) (hothers : s'.others = s.others)
    (hframes : s'.frames.WF s'.mem) (hused : ∀ f, s.frames.Used s.mem f → s'.frames.Used s'.mem f)
    (hframe : p.frame = none) (hclaim : p.claim = none ∨ p.claim = (s.pc k).claim)
    (hentries : ∀ pid page leaf, s'.spaces pid page = some leaf →
      s.spaces pid page = some leaf ∨ s'.EntryValid pid page leaf)
    (hp : p.Valid s') : Inv s' := by
  refine h.move hs.keeps hs.numbered hframes (h.owned.mono (fun o f ho => ?_) hused)
    (h.claims.mono (fun j q hq => ?_) fun q hq => ?_) (hs.vmaValid h) hentries (update_valid hpc hp)
  · cases o with
    | page q =>
      rw [Sys.Owns, hpages] at ho
      exact ho
    | thread j =>
      rw [Sys.Owns, hpc] at ho
      exact update_some Pc.frame (.inl hframe) ho
    | others =>
      rw [Sys.Owns, hothers] at ho
      exact ho
    | pinned =>
      rw [Sys.Owns, hs.pinned] at ho
      exact ho
  · rw [hpc] at hq
    exact update_some Pc.claim hclaim hq
  · rw [hpages]
    exact hq

/-- A step that only moves the thread. -/
theorem Inv.goto (h : Inv s) (hframe : p.frame = none)
    (hclaim : p.claim = none ∨ p.claim = (s.pc k).claim) (hp : p.Valid s) : Inv (s.goto k p) := by
  have hs : Stays s (s.goto k p) := .refl h rfl rfl rfl rfl
  exact h.quiet hs rfl (fun _ _ => rfl) rfl h.frames (fun _ hf => hf) hframe hclaim
    (fun _ _ _ hl => .inl hl) (hs.keeps.valid hp)

theorem Inv.logged (h : Inv s) (log : List (Request × Answer)) : Inv { s with log := log } := by
  have hs : Keeps s { s with log := log } := ⟨le_rfl, fun _ _ _ hq => hq, fun _ hf => hf⟩
  exact h.move hs h.numbered h.frames ⟨h.owned.used, h.owned.apart⟩ h.claims
    (fun pid v hv => ⟨(h.vmas pid v hv).aligned, (h.vmas pid v hv).maps⟩)
    (fun _ _ _ hl => .inl hl) fun _ => .inl rfl

theorem Inv.answer (h : Inv s) (q : Request) (a : Answer) : Inv (s.answer k q a) :=
  (h.goto (p := .user) rfl (.inl rfl) trivial).logged ((q, a) :: s.log)

/-! ## Faults -/

/-- A model changes, and keeps its mappings. -/
theorem Stays.modify (hi : Inv s) {g : Model → Model} {id : ℕ} (hg : ∀ m, (g m).id = m.id)
    (hmappings : ∀ m, m.mappings ⊆ (g m).mappings) (hprocs : s'.procs = s.procs)
    (hvmas : s'.vmas = s.vmas) (hpinned : s'.pinned = s.pinned)
    (hstore : s'.store = s.store.modify id g) : Stays s s' :=
  ⟨hprocs, hvmas, hpinned, hstore ▸ hi.numbered.modify hg id,
    fun _ _ _ h => hstore ▸ h.modify hg hmappings id⟩

/-- Threads that claim a page. -/
theorem claims_update {pages pages' : PageId → Prop} {pc : ℕ → Pc} {c : PageId}
    (h : Holdings pages fun j q => (pc j).claim = some q) (hnew : ¬pages c) (hp : p.claim = some c)
    (hpages : ∀ q, pages q → pages' q) (hc : pages' c) :
    Holdings pages' fun j q => (Function.update pc k p j).claim = some q := by
  refine h.grant (o := k) hnew hc (fun j q hq => ?_) hpages
  by_cases hj : j = k
  · rw [hj, Function.update_self, hp] at hq
    cases hq
    exact .inr ⟨hj, rfl⟩
  · rw [Function.update_of_ne hj] at hq
    exact .inl hq

/-- A thread gives its claim up, and the page is no longer being read. -/
theorem claims_release {pages pages' : PageId → Prop} {pc : ℕ → Pc} {c : PageId}
    (h : Holdings pages fun j q => (pc j).claim = some q) (hold : (pc k).claim = some c)
    (hp : p.claim = none) (hpages : ∀ q, q ≠ c → pages q → pages' q) :
    Holdings pages' fun j q => (Function.update pc k p j).claim = some q := by
  refine h.release hold (fun j q hq => ?_) hpages
  by_cases hj : j = k
  · rw [hj, Function.update_self, hp] at hq
    cases hq
  · rw [Function.update_of_ne hj] at hq
    exact ⟨hq, fun hjq => hj hjq.1⟩

theorem Inv.load (h : Inv s) {pid : ℕ} (hpid : pid < s.procs) (va : ℕ) : Inv (s.load k pid va) := by
  unfold Sys.load
  cases s.entry pid va with
  | some leaf => exact h.answer _ _
  | none =>
    cases hd : demand (s.vmas pid) va with
    | none => exact h.answer _ _
    | some q => exact h.goto (p := .faulting ⟨q, pid, va⟩) rfl (.inl rfl) ⟨hpid, hd⟩

/-- Pages after one of them has got another state. -/
theorem pageAt_set {st : Store} {q : PageId} {x old : PageState}
    (hold : st.pageAt q.id q.index = some old) (r : PageId) (y : PageState) :
    (st.setPage q.id q.index x).pageAt r.id r.index = some y ↔
      r = q ∧ x = y ∨ r ≠ q ∧ st.pageAt r.id r.index = some y := by
  rw [Store.pageAt_setPage]
  by_cases hr : r = q
  · subst hr
    rw [if_pos ⟨rfl, rfl⟩, hold, Option.map_some, Option.some_inj]
    exact ⟨fun hx => .inl ⟨rfl, hx⟩, fun hx => hx.elim (fun hx => hx.2) fun hx => absurd rfl hx.1⟩
  · rw [if_neg fun hrq => hr (by cases r; cases q; cases hrq.1; cases hrq.2; rfl)]
    exact ⟨fun hx => .inr ⟨hr, hx⟩, fun hx => hx.elim (fun hx => absurd hx.1 hr) fun hx => hx.2⟩

theorem Inv.lookUp (h : Inv s) {c : Fault} (hpc : s.pc k = .faulting c) : Inv (s.lookUp k c) := by
  have hc : s.FaultValid c := by
    have hv := h.valid k
    rwa [hpc] at hv
  unfold Sys.lookUp
  rcases s.store.lookUp_cases c.id c.index with ⟨-, hl⟩ | ⟨frame, hpage, hl⟩ | ⟨-, hl⟩ | ⟨hpage, hl⟩ <;>
    rw [hl]
  · exact h.answer _ _
  · -- the page is resident: its frame is in use
    have hs : Stays s { s.goto k (.mapping c frame) with
        store := s.store.modify c.id Model.faulted, sharedHits := s.sharedHits + 1 } :=
      .modify h (g := Model.faulted) (fun _ => rfl) (fun _ => List.Subset.refl _) rfl rfl rfl rfl
    refine h.quiet hs rfl (fun id i => ?_) rfl h.frames (fun _ hf => hf) rfl (.inl rfl)
      (fun _ _ _ hleaf => .inl hleaf) ⟨hs.keeps.fault hc, ?_⟩
    · exact Store.pageAt_modify (g := Model.faulted) (fun _ => rfl) (fun _ => rfl) c.id id i
    · exact (h.owned.used (.page c.toPageId) frame hpage).aligned
  · exact h
  · -- the page is claimed
    have hfaulted : ∀ id i, (s.store.modify c.id Model.faulted).pageAt id i = s.store.pageAt id i :=
      Store.pageAt_modify (g := Model.faulted) (fun _ => rfl) (fun _ => rfl) c.id
    have hset := pageAt_set (q := c.toPageId) (x := .loading) ((hfaulted c.id c.index).trans hpage)
    have hs : Stays s { s.goto k (.claimed c) with
        store := (s.store.modify c.id Model.faulted).setPage c.id c.index .loading } := by
      refine ⟨rfl, rfl, rfl, ?_, fun id pid base hm => ?_⟩
      · exact (h.numbered.modify (g := Model.faulted) (fun _ => rfl) _).modify
          (g := Model.setPage c.index .loading) (fun _ => rfl) _
      · exact (hm.modify (g := Model.faulted) (fun _ => rfl) (fun _ => List.Subset.refl _) _).modify
          (g := Model.setPage c.index .loading) (fun _ => rfl) (fun _ => List.Subset.refl _) _
    refine h.move hs.keeps hs.numbered h.frames (h.owned.mono (fun o f ho => ?_) fun _ hf => hf)
      (claims_update (c := c.toPageId) h.claims ?_ rfl (fun q hq => ?_) ?_) (hs.vmaValid h)
      (fun _ _ _ hleaf => .inl hleaf) (update_valid (p := .claimed c) rfl (hs.keeps.fault hc))
    · cases o with
      | page q =>
        rcases (hset q _).mp ho with ⟨-, hx⟩ | ⟨-, hx⟩
        · cases hx
        · exact (hfaulted q.id q.index).symm.trans hx
      | thread j => exact update_some Pc.frame (.inl rfl) ho
      | others => exact ho
      | pinned => exact ho
    · rw [hpage]
      nofun
    · refine (hset q _).mpr ?_
      by_cases hq' : q = c.toPageId
      · exact .inl ⟨hq', rfl⟩
      · exact .inr ⟨hq', (hfaulted q.id q.index).trans hq⟩
    · exact (hset _ _).mpr (.inl ⟨rfl, rfl⟩)

theorem Inv.readIn (h : Inv s) {c : Fault} (hpc : s.pc k = .claimed c) (disk : Disk) (io : ℕ → Bool) :
    Inv (s.readIn disk k c io) := by
  have hc : s.FaultValid c := by
    have hv := h.valid k
    rwa [hpc] at hv
  have hclaim : (s.pc k).claim = some c.toPageId := by rw [hpc]; rfl
  unfold Sys.readIn
  cases s.store.model c.id with
  | none => exact h.answer _ _
  | some m =>
    dsimp only
    cases ha : s.frames.alloc s.mem with
    | mk r frames =>
      cases r with
      | none =>
        obtain ⟨hwf, hused⟩ := h.frames.alloc_none ha
        exact h.quiet (p := .failed c) (.refl h rfl rfl rfl rfl) rfl (fun _ _ => rfl) rfl hwf hused rfl
          (.inr hclaim.symm) (fun _ _ _ hleaf => .inl hleaf) ⟨hc.live, hc.demand⟩
      | some frame =>
        obtain ⟨hwf, hnew, hfresh, hused⟩ := h.frames.alloc ha
        dsimp only
        cases readPage (readSector disk io) m.startSector m.size c.index with
        | none =>
          -- the frame goes back at once
          obtain ⟨hwf', -, hused', -⟩ := hwf.free hnew rfl
          refine h.quiet (p := .failed c) (.refl h rfl rfl rfl rfl) rfl (fun _ _ => rfl) rfl hwf'
            (fun g hg => hused' g (fun hgf => hfresh (hgf ▸ hg)) (hused g hg)) rfl (.inr hclaim.symm)
            (fun _ _ _ hleaf => .inl hleaf) ⟨hc.live, hc.demand⟩
        | some page =>
          obtain ⟨hwf', hused'⟩ := hwf.write hnew page
          have hs : Stays s { s.goto k (.loaded c frame) with
              frames := frames
              mem := Function.update s.mem frame page
              reads := Function.update s.reads c.toPageId (s.reads c.toPageId + 1) } :=
            .refl h rfl rfl rfl rfl
          refine h.move hs.keeps hs.numbered hwf' ?_ (h.claims.mono (fun j q hq => ?_) fun _ hq => hq)
            (hs.vmaValid h) (fun _ _ _ hleaf => .inl hleaf)
            (update_valid (p := .loaded c frame) rfl (hs.keeps.fault hc))
          · refine h.owned.grant (o := .thread k) (r := frame) hfresh (hused' frame hnew)
              (fun o g ho => ?_) fun g hg => hused' g (hused g hg)
            cases o with
            | thread j =>
              by_cases hj : j = k
              · subst hj
                rw [Sys.Owns] at ho
                dsimp only [Sys.goto] at ho
                rw [Function.update_self] at ho
                exact .inr ⟨rfl, (Option.some.inj ho).symm⟩
              · rw [Sys.Owns] at ho
                dsimp only [Sys.goto] at ho
                rw [Function.update_of_ne hj] at ho
                exact .inl ho
            | page q => exact .inl ho
            | others => exact .inl ho
            | pinned => exact .inl ho
          · exact update_some Pc.claim (p := .loaded c frame) (.inr hclaim.symm) hq

theorem Inv.giveUp (h : Inv s) {c : Fault} (hpc : s.pc k = .failed c) : Inv (s.giveUp k c) := by
  have hclaim : (s.pc k).claim = some c.toPageId := by rw [hpc]; rfl
  have hloading : s.store.pageAt c.id c.index = some .loading := h.claims.used k c.toPageId hclaim
  have hset := pageAt_set (q := c.toPageId) (x := .absent) hloading
  have hs : Stays s (s.giveUp k c) :=
    .modify h (g := Model.setPage c.index .absent) (fun _ => rfl) (fun _ => List.Subset.refl _) rfl rfl rfl
      rfl
  refine h.move hs.keeps hs.numbered h.frames (h.owned.mono (fun o f ho => ?_) fun _ hf => hf)
    (claims_release (p := .user) h.claims hclaim rfl fun q hq hold => ?_) (hs.vmaValid h)
    (fun _ _ _ hleaf => .inl hleaf) (update_valid (p := .user) rfl trivial)
  · cases o with
    | page q =>
      rcases (hset q _).mp ho with ⟨-, hx⟩ | ⟨-, hx⟩
      · cases hx
      · exact hx
    | thread j => exact update_some Pc.frame (p := .user) (.inl rfl) ho
    | others => exact ho
    | pinned => exact ho
  · exact (hset q _).mpr (.inr ⟨hq, hold⟩)

/-- The thread that had read the page into a frame has it no more. -/
theorem owns_user {pc : ℕ → Pc} (hp : p.frame = none) {j : ℕ}
    (h : (Function.update pc k p j).frame = some f) : j ≠ k ∧ (pc j).frame = some f := by
  by_cases hj : j = k
  · rw [hj, Function.update_self, hp] at h
    cases h
  · rw [Function.update_of_ne hj] at h
    exact ⟨hj, h⟩

theorem Inv.publish (h : Inv s) {c : Fault} {frame : ℕ} (hpc : s.pc k = .loaded c frame) :
    Inv (s.publish k c frame) := by
  have hc : s.FaultValid c := by
    have hv := h.valid k
    rwa [hpc] at hv
  have hclaim : (s.pc k).claim = some c.toPageId := by rw [hpc]; rfl
  have hframe : (s.pc k).frame = some frame := by rw [hpc]; rfl
  have hused := h.owned.used (.thread k) frame hframe
  unfold Sys.publish
  cases hm : s.store.model c.id with
  | none =>
    obtain ⟨hwf, -, hothers, -⟩ := h.frames.free hused rfl
    have hs : Stays s ((s.freeFrame frame).failFault k c) := .refl h rfl rfl rfl rfl
    refine h.move hs.keeps hs.numbered hwf ?_ (h.claims.mono (fun j q hq => ?_) fun _ hq => hq)
      (hs.vmaValid h) (fun _ _ _ hleaf => .inl hleaf) (update_valid (p := .user) rfl trivial)
    · refine h.owned.release (o := .thread k) hframe (fun o g ho => ?_) hothers
      cases o with
      | thread j =>
        obtain ⟨hj, hold⟩ := owns_user (p := .user) rfl ho
        exact ⟨hold, fun heq => hj (Owner.thread.inj heq.1)⟩
      | page q => exact ⟨ho, nofun⟩
      | others => exact ⟨ho, nofun⟩
      | pinned => exact ⟨ho, nofun⟩
    · exact update_some Pc.claim (p := .user) (.inl rfl) hq
  | some m =>
    -- the frame goes from the thread to the page
    have hloading : s.store.pageAt c.id c.index = some .loading := h.claims.used k c.toPageId hclaim
    have hset := pageAt_set (q := c.toPageId) (x := .resident frame) hloading
    have hs : Stays s { s.goto k (.mapping c frame) with
        store := s.store.setPage c.id c.index (.resident frame), resident := s.resident + 1 } :=
      .modify h (g := Model.setPage c.index (.resident frame)) (fun _ => rfl)
        (fun _ => List.Subset.refl _) rfl rfl rfl rfl
    refine h.move hs.keeps hs.numbered h.frames ?_
      (claims_release (p := .mapping c frame) h.claims hclaim rfl fun q hq hold => ?_) (hs.vmaValid h)
      (fun _ _ _ hleaf => .inl hleaf)
      (update_valid (p := .mapping c frame) rfl ⟨hs.keeps.fault hc, hused.aligned⟩)
    · refine h.owned.transfer (o := .thread k) (d := .page c.toPageId) hframe (fun o g ho => ?_)
        fun _ hf => hf
      cases o with
      | thread j =>
        obtain ⟨hj, hold⟩ := owns_user (p := .mapping c frame) rfl ho
        exact .inl ⟨hold, fun heq => hj (Owner.thread.inj heq.1)⟩
      | page q =>
        rcases (hset q _).mp ho with ⟨hq, hx⟩ | ⟨-, hold⟩
        · exact .inr ⟨by rw [hq], (PageState.resident.inj hx).symm⟩
        · exact .inl ⟨hold, nofun⟩
      | others => exact .inl ⟨ho, nofun⟩
      | pinned => exact .inl ⟨ho, nofun⟩
    · exact (hset q _).mpr (.inr ⟨hq, hold⟩)

theorem setSpace_some {pid pid' page : ℕ} {m : PageMap (Option PageId)} {leaf : Leaf (Option PageId)}
    (h : (s.setSpace pid m).spaces pid' page = some leaf) :
    pid' = pid ∧ m page = some leaf ∨ pid' ≠ pid ∧ s.spaces pid' page = some leaf := by
  unfold Sys.setSpace at h
  dsimp only at h
  by_cases hpid : pid' = pid
  · rw [hpid, Function.update_self] at h
    exact .inl ⟨hpid, h⟩
  · rw [Function.update_of_ne hpid] at h
    exact .inr ⟨hpid, h⟩

/-- One address space changes. -/
theorem Inv.setSpace (h : Inv s) {pid : ℕ} {m : PageMap (Option PageId)}
    (hm : ∀ page leaf, m page = some leaf →
      s.spaces pid page = some leaf ∨ s.EntryValid pid page leaf) : Inv (s.setSpace pid m) := by
  have hs : Stays s (s.setSpace pid m) := .refl h rfl rfl rfl rfl
  refine h.move hs.keeps hs.numbered h.frames ⟨h.owned.used, h.owned.apart⟩ h.claims (hs.vmaValid h)
    (fun pid' page leaf hleaf => ?_) fun _ => .inl rfl
  rcases setSpace_some hleaf with ⟨rfl, hnew⟩ | ⟨-, hold⟩
  · exact (hm page leaf hnew).imp id hs.keeps.entry
  · exact .inl hold

theorem pageOf_pageAlignDown (va : ℕ) : pageOf (pageAlignDown va) = pageOf va := by
  have hpage : PAGE_SIZE = 4096 := rfl
  unfold pageOf pageAlignDown
  rw [hpage]
  omega

theorem Inv.mapInto (h : Inv s) {c : Fault} {frame : ℕ} (hpc : s.pc k = .mapping c frame) (room : ℕ) :
    Inv (s.mapInto k c frame room) := by
  obtain ⟨hc, haligned⟩ : s.FaultValid c ∧ PAGE_SIZE ∣ frame := by
    have hv := h.valid k
    rwa [hpc] at hv
  unfold Sys.mapInto
  rw [if_pos hc.live]
  have hmapped : Inv (s.setSpace c.pid ((s.spaces c.pid).map (pageAlignDown c.va) frame 1 .UserReadOnly
      (some c.toPageId) room).2) := by
    refine h.setSpace fun page leaf hleaf => ?_
    rcases PageMap.map_one hleaf with ⟨-, -, rfl, rfl⟩ | hold
    · refine .inr ⟨⟨haligned, fun _ _ => rfl, nofun⟩, hc.live, fun q hq => ?_⟩
      cases hq
      exact ⟨c.va, hc.demand, pageOf_pageAlignDown c.va⟩
    · exact .inl hold
  dsimp only
  split
  · exact hmapped.goto (p := .user) rfl (.inl rfl) trivial
  · exact hmapped.answer _ _

/-! ## Copies -/

theorem Inv.copyFromHead (h : Inv s) (c : CopyFrom) : Inv (s.copyFromHead k c) := by
  unfold Sys.copyFromHead
  split_ifs
  · cases hleaf : s.spaces c.pid (pageOf (c.uva + c.out.length)) with
    | none => exact h.answer _ _
    | some leaf =>
      exact h.goto (p := .copyPiece c leaf) rfl (.inl rfl) (h.entries _ _ _ hleaf).toLeafValid
  · exact h.answer _ _

theorem Inv.copyToHead (h : Inv s) (c : CopyTo) : Inv (s.copyToHead k c) := by
  unfold Sys.copyToHead
  split_ifs
  · cases hleaf : s.spaces c.pid (pageOf (c.uva + c.done)) with
    | none => exact h.answer _ _
    | some leaf =>
      exact h.goto (p := .writePiece c leaf) rfl (.inl rfl) (h.entries _ _ _ hleaf).toLeafValid
  · exact h.answer _ _

theorem pageAlignDown_add {frame offset : ℕ} (hf : PAGE_SIZE ∣ frame) (ho : offset < PAGE_SIZE) :
    pageAlignDown (frame + offset) = frame := by
  obtain ⟨n, rfl⟩ := hf
  have hpage : PAGE_SIZE = 4096 := rfl
  unfold pageAlignDown
  rw [hpage] at ho ⊢
  omega

/-- What a piece of a copy to user memory writes. -/
theorem write_leaf (mem : Memory) {leaf : Leaf (Option PageId)} (hl : s.LeafValid leaf) (va : ℕ)
    (bytes : List UInt8) : ∃ page, mem.write (leaf.frame + va % PAGE_SIZE) bytes =
      Function.update mem leaf.frame page := by
  unfold Memory.write
  rw [pageAlignDown_add hl.aligned (Nat.mod_lt _ (by decide))]
  exact ⟨_, rfl⟩

/-- A piece of a copy to user memory, whose frame has not been freed. -/
theorem Inv.writePiece (h : Inv s) {c : CopyTo} {leaf : Leaf (Option PageId)}
    (hpc : s.pc k = .writePiece c leaf) (hused : s.frames.Used s.mem leaf.frame) :
    Inv (s.writePiece k c leaf) := by
  have hl : s.LeafValid leaf := by
    have hv := h.valid k
    rwa [hpc] at hv
  obtain ⟨page, hwrite⟩ := write_leaf s.mem hl (c.uva + c.done)
    ((c.data.drop c.done).take (chunk c.uva c.data.length c.done))
  obtain ⟨hwf, hothers⟩ := h.frames.write hused page
  unfold Sys.writePiece
  dsimp only
  rw [hwrite]
  exact h.quiet (p := .copyTo _) (.refl h rfl rfl rfl rfl) rfl (fun _ _ => rfl) rfl hwf hothers rfl
    (.inl rfl) (fun _ _ _ hleaf => .inl hleaf) trivial

/-! ## `reclaim` -/

/-- The entries for the page are taken out, and no others. -/
theorem unmapAll_cases (procs index : ℕ) (mappings : List Mapping)
    (spaces : ℕ → PageMap (Option PageId)) (pid page : ℕ) :
    (pid < procs ∧ ∃ base, ⟨pid, base⟩ ∈ mappings ∧ page = pageOf (base + index * PAGE_SIZE)) ∧
      Sys.unmapAll procs index mappings spaces pid page = none ∨
    (pid < procs → ∀ base, ⟨pid, base⟩ ∈ mappings → page ≠ pageOf (base + index * PAGE_SIZE)) ∧
      Sys.unmapAll procs index mappings spaces pid page = spaces pid page := by
  induction mappings generalizing spaces with
  | nil => exact .inr ⟨fun _ _ hmem => (nomatch hmem), rfl⟩
  | cons m mappings ih =>
    rw [Sys.unmapAll, List.foldl_cons, ← Sys.unmapAll]
    by_cases hm : m.pid < procs ∧ m.pid = pid ∧ page = pageOf (m.base + index * PAGE_SIZE)
    · -- the first mapping has the page
      obtain ⟨hlive, rfl, hpage⟩ := hm
      refine .inl ⟨⟨hlive, m.base, List.mem_cons_self, hpage⟩, ?_⟩
      rcases ih (Function.update spaces m.pid ((spaces m.pid).unmap (m.base + index * PAGE_SIZE) 1)) with
        ⟨-, hnone⟩ | ⟨-, hsame⟩
      · rw [if_pos hlive, hnone]
      · rw [if_pos hlive, hsame, Function.update_self, PageMap.unmap_one, hpage, Function.update_self]
    · have hfirst : (if m.pid < procs then Function.update spaces m.pid
          ((spaces m.pid).unmap (m.base + index * PAGE_SIZE) 1) else spaces) pid page =
          spaces pid page := by
        split_ifs with hlive
        · by_cases hpid : pid = m.pid
          · rw [hpid, Function.update_self, PageMap.unmap_one, Function.update_of_ne]
            exact fun hpage => hm ⟨hlive, hpid.symm, hpage⟩
          · rw [Function.update_of_ne hpid]
        · rfl
      rcases ih (if m.pid < procs then Function.update spaces m.pid
          ((spaces m.pid).unmap (m.base + index * PAGE_SIZE) 1) else spaces) with
        ⟨⟨hpid, base, hmem, hpage⟩, hnone⟩ | ⟨hout, hsame⟩
      · exact .inl ⟨⟨hpid, base, List.mem_cons_of_mem _ hmem, hpage⟩, hnone⟩
      · refine .inr ⟨fun hp base hmem => ?_, hsame.trans hfirst⟩
        rcases List.mem_cons.mp hmem with rfl | hmem
        · exact fun hpage => hm ⟨hp, rfl, hpage⟩
        · exact hout hp base hmem

/-- A page that is taken has no frame any more. -/
theorem pageAt_evicted {st : Store} {q : PageId} {old : PageState}
    (hold : st.pageAt q.id q.index = some old) (r : PageId) (y : PageState) :
    (st.modify q.id (Model.evicted q.index)).pageAt r.id r.index = some y ↔
      r = q ∧ y = .absent ∨ r ≠ q ∧ st.pageAt r.id r.index = some y := by
  rw [Store.pageAt_modify_set (g := Model.evicted q.index) (fun _ => rfl) fun _ => rfl,
    ← Store.pageAt_setPage, pageAt_set hold, eq_comm (a := y)]

theorem Inv.evict (h : Inv s) {q : PageId} {frame : ℕ}
    (hpage : s.store.pageAt q.id q.index = some (.resident frame)) (mappings : List Mapping) :
    Inv (s.evict q.id mappings q.index frame) := by
  have hset := pageAt_evicted hpage
  have hused := h.owned.used (.page q) frame hpage
  obtain ⟨hwf, -, hothers, -⟩ := h.frames.free hused rfl
  have hs : Stays s (s.evict q.id mappings q.index frame) :=
    .modify h (g := Model.evicted q.index) (fun _ => rfl) (fun _ => List.Subset.refl _) rfl rfl rfl rfl
  refine h.move hs.keeps hs.numbered hwf ?_ (h.claims.mono (fun _ _ hj => hj) fun r hr => ?_)
    (hs.vmaValid h) (fun pid page leaf hleaf => .inl ?_) fun _ => .inl rfl
  · refine h.owned.release (o := .page q) hpage (fun o g ho => ?_) hothers
    cases o with
    | page r =>
      rcases (hset r _).mp ho with ⟨-, hx⟩ | ⟨hr, hold⟩
      · cases hx
      · exact ⟨hold, fun heq => hr (Owner.page.inj heq.1)⟩
    | thread j => exact ⟨ho, nofun⟩
    | others => exact ⟨ho, nofun⟩
    | pinned => exact ⟨ho, nofun⟩
  · refine (hset r _).mpr (.inr ⟨?_, hr⟩)
    rintro rfl
    rw [hpage] at hr
    cases hr
  · rcases unmapAll_cases s.procs q.index mappings s.spaces pid page with ⟨-, hnone⟩ | ⟨-, hsame⟩
    · exact absurd (hnone.symm.trans hleaf) nofun
    · exact hsame.symm.trans hleaf

/-- The mappings of a model, by its id. -/
def Covers (st : Store) (id : ℕ) (mappings : List Mapping) : Prop :=
  ∀ pid base, st.Maps id pid base → ⟨pid, base⟩ ∈ mappings

/-- Taking a page keeps all mappings. -/
theorem Covers.evict {id : ℕ} {mappings : List Mapping} (h : Covers s.store id mappings) (id' index f : ℕ)
    (mappings' : List Mapping) : Covers (s.evict id' mappings' index f).store id mappings := by
  rintro pid base ⟨m, hm, hmem⟩
  unfold Sys.evict at hm
  dsimp only at hm
  rw [Store.model_modify (g := Model.evicted index) fun _ => rfl] at hm
  obtain ⟨x, hx, rfl⟩ := Option.map_eq_some_iff.mp hm
  refine h pid base ⟨x, hx, ?_⟩
  split_ifs at hmem <;> exact hmem

/-- What every page that `reclaim` takes keeps. -/
theorem reclaimPages_induct {motive : Sys → Prop} {want id : ℕ} {mappings : List Mapping}
    (hevict : ∀ s index frame, motive s → s.store.pageAt id index = some (.resident frame) →
      Covers s.store id mappings → motive (s.evict id mappings index frame)) :
    ∀ {n freed : ℕ} {s : Sys}, motive s → Covers s.store id mappings →
      motive (Sys.reclaimPages want id mappings n freed s).2 := by
  intro n
  induction n with
  | zero => exact fun h _ => h
  | succ index ih =>
    intro freed s h hcovers
    rw [Sys.reclaimPages]
    split_ifs
    · exact h
    · split
      · rename_i frame hpage
        exact ih (hevict s index frame h hpage hcovers) (hcovers.evict id index frame mappings)
      · exact ih h hcovers

theorem reclaim_induct {motive : Sys → Prop} (hnumbered : s.store.Numbered)
    (hevict : ∀ s id mappings index frame, motive s → Covers s.store id mappings →
      s.store.pageAt id index = some (.resident frame) → motive (s.evict id mappings index frame))
    (h : motive s) (want : ℕ) : motive (s.reclaim want).2 := by
  have hmodels : ∀ m ∈ s.store.models, Covers s.store m.id m.mappings := by
    rintro m hm pid base ⟨x, hx, hmem⟩
    rw [hnumbered.model_of_mem hm] at hx
    cases hx
    exact hmem
  clear hnumbered
  unfold Sys.reclaim
  generalize s.store.models = models at hmodels ⊢
  generalize (0 : ℕ) = freed
  induction models generalizing s freed with
  | nil => exact h
  | cons m models ih =>
    rw [List.foldl_cons]
    have hm := hmodels m List.mem_cons_self
    refine ih ?_ (fun x hx => ?_) _
    · exact reclaimPages_induct
        (fun t index frame ht hpage hcovers => hevict t m.id m.mappings index frame ht hcovers hpage) h hm
    · exact reclaimPages_induct (motive := fun t => Covers t.store x.id x.mappings)
        (fun t index frame ht _ _ => ht.evict m.id index frame m.mappings)
        (hmodels x (List.mem_cons_of_mem _ hx)) hm

theorem Inv.reclaim (h : Inv s) (want : ℕ) : Inv (s.reclaim want).2 :=
  reclaim_induct (motive := Inv) h.numbered
    (fun _ id mappings index _ ht _ hpage => ht.evict (q := ⟨id, index⟩) hpage mappings) h want

/-! ## The rest of the kernel -/

theorem Inv.create (h : Inv s) : Inv { s with procs := s.procs + 1 } :=
  h.move ⟨Nat.le_succ _, fun _ _ _ hq => hq, fun _ hf => hf⟩ h.numbered h.frames
    ⟨h.owned.used, h.owned.apart⟩ h.claims
    (fun pid v hv => ⟨(h.vmas pid v hv).aligned, (h.vmas pid v hv).maps⟩)
    (fun _ _ _ hl => .inl hl) fun _ => .inl rfl

theorem Inv.openModel (h : Inv s) (hash : UInt64) (start size : ℕ) :
    Inv { s with store := (s.store.enter hash start size).2 } := by
  have hs : Stays s { s with store := (s.store.enter hash start size).2 } := by
    refine ⟨rfl, rfl, rfl, h.numbered.enter hash start size, fun id pid base hm => ?_⟩
    obtain ⟨m, hm, hmem⟩ := hm
    obtain ⟨refs, hm'⟩ := s.store.model_enter hash start size hm
    exact ⟨_, hm', hmem⟩
  refine h.move hs.keeps hs.numbered h.frames (h.owned.mono (fun o f ho => ?_) fun _ hf => hf)
    (h.claims.mono (fun _ _ hj => hj) fun q hq => ?_) (hs.vmaValid h) (fun _ _ _ hl => .inl hl)
    fun _ => .inl rfl
  · cases o with
    | page q =>
      rcases s.store.pageAt_enter hash start size ho with hold | ⟨habsent, -⟩
      · exact hold
      · cases habsent
    | thread j => exact ho
    | others => exact ho
    | pinned => exact ho
  · obtain ⟨m, hm, hi⟩ := Option.bind_eq_some_iff.mp hq
    obtain ⟨refs, hm'⟩ := s.store.model_enter hash start size hm
    exact Option.bind_eq_some_iff.mpr ⟨_, hm', hi⟩

/-- A region that was found is still found. -/
theorem demand_append {vmas : List Vma} {va : ℕ} {q : PageId} (h : demand vmas va = some q) (v : Vma) :
    demand (vmas ++ [v]) va = some q := by
  obtain ⟨x, hx, hq⟩ := Option.map_eq_some_iff.mp h
  unfold findVma at hx
  refine Option.map_eq_some_iff.mpr ⟨x, ?_, hq⟩
  rw [findVma, List.find?_append, hx, Option.some_or]

theorem Inv.modelMap (h : Inv s) (pid id uva : ℕ) : Inv (s.modelMap pid id uva) := by
  unfold Sys.modelMap
  split_ifs with halign
  · exact h
  · rw [not_not] at halign
    unfold Store.attach
    cases hm : s.store.model id with
    | none => exact h
    | some m =>
      dsimp only
      have hpages : ∀ id' i, (s.store.modify id (Model.attached ⟨pid, uva⟩)).pageAt id' i =
          s.store.pageAt id' i :=
        Store.pageAt_modify (g := Model.attached ⟨pid, uva⟩) (fun _ => rfl) (fun _ => rfl) id
      have hmaps : ∀ id' pid' base, s.store.Maps id' pid' base →
          (s.store.modify id (Model.attached ⟨pid, uva⟩)).Maps id' pid' base := fun _ _ _ hx =>
        hx.modify (g := Model.attached ⟨pid, uva⟩) (fun _ => rfl)
          (fun _ => List.subset_append_left _ _) id
      refine h.move ⟨le_rfl, fun pid' va q hq => ?_, fun _ hf => hf⟩
        (h.numbered.modify (g := Model.attached ⟨pid, uva⟩) (fun _ => rfl) id) h.frames
        (h.owned.mono (fun o f ho => ?_) fun _ hf => hf)
        (h.claims.mono (fun _ _ hj => hj) fun q hq => (hpages _ _).trans hq) (fun pid' v hv => ?_)
        (fun _ _ _ hl => .inl hl) fun _ => .inl rfl
      · by_cases hpid : pid' = pid
        · dsimp only
          rw [hpid, Function.update_self]
          exact demand_append (hpid ▸ hq) _
        · dsimp only
          rwa [Function.update_of_ne hpid]
      · cases o with
        | page q => exact (hpages q.id q.index).symm.trans ho
        | thread j => exact ho
        | others => exact ho
        | pinned => exact ho
      · by_cases hpid : pid' = pid
        · subst hpid
          dsimp only at hv
          rw [Function.update_self] at hv
          rcases List.mem_append.mp hv with hold | hnew
          · have hv' := h.vmas pid' v hold
            exact ⟨hv'.aligned, fun id' hid => hmaps id' pid' v.start (hv'.maps id' hid)⟩
          · rw [List.mem_singleton] at hnew
            subst hnew
            refine ⟨Nat.dvd_of_mod_eq_zero halign, fun id' hid => ?_⟩
            cases hid
            refine ⟨_, (Store.model_modify (g := Model.attached ⟨pid', uva⟩) (fun _ => rfl) id id).trans
              (by rw [hm, Option.map_some, if_pos rfl]), ?_⟩
            exact List.mem_append_right _ (List.mem_singleton.mpr rfl)
        · dsimp only at hv
          rw [Function.update_of_ne hpid] at hv
          have hv' := h.vmas pid' v hv
          exact ⟨hv'.aligned, fun id' hid => hmaps id' pid' v.start (hv'.maps id' hid)⟩

/-- The rest of the kernel changes which frames it has. -/
theorem Inv.environment (h : Inv s) (hs : Keeps s s') (hstore : s'.store = s.store)
    (hvmas : s'.vmas = s.vmas) (hpc : s'.pc = s.pc) (hframes : s'.frames.WF s'.mem)
    (howned : Holdings (s'.frames.Used s'.mem) s'.Owns)
    (hentries : ∀ pid page leaf, s'.spaces pid page = some leaf →
      s.spaces pid page = some leaf ∨ s'.EntryValid pid page leaf) : Inv s' := by
  refine h.move hs (hstore ▸ h.numbered) hframes howned (by rw [hstore, hpc]; exact h.claims)
    (fun pid v hv => ?_) hentries fun j => .inl (congrFun hpc j)
  rw [hvmas] at hv
  exact ⟨(h.vmas pid v hv).aligned, hstore ▸ (h.vmas pid v hv).maps⟩

theorem Inv.take (h : Inv s) (disk : Disk) (hs : s.step disk .take = some s') : Inv s' := by
  rw [Sys.step] at hs
  cases ha : s.frames.alloc s.mem with
  | mk r frames =>
    rw [ha] at hs
    cases r with
    | none =>
      cases hs
      obtain ⟨hwf, hused⟩ := h.frames.alloc_none ha
      exact h.environment ⟨le_rfl, fun _ _ _ hq => hq, fun _ hf => hf⟩ rfl rfl rfl hwf
        (h.owned.mono (fun _ _ ho => ho) hused) fun _ _ _ hl => .inl hl
    | some frame =>
      cases hs
      obtain ⟨hwf, hnew, hfresh, hused⟩ := h.frames.alloc ha
      refine h.environment ⟨le_rfl, fun _ _ _ hq => hq, fun _ hf => hf⟩ rfl rfl rfl hwf
        (h.owned.grant (o := .others) hfresh hnew (fun o g ho => ?_) hused) fun _ _ _ hl => .inl hl
      cases o with
      | others =>
        rcases List.mem_cons.mp ho with rfl | hold
        · exact .inr ⟨rfl, rfl⟩
        · exact .inl hold
      | page q => exact .inl ho
      | thread j => exact .inl ho
      | pinned => exact .inl ho

/-- A write of the rest of the kernel, or of a process, to a frame that is its own. -/
theorem Inv.write (h : Inv s) {frame : ℕ} (hf : frame ∈ s.others ∨ frame ∈ s.pinned) (page : Page) :
    Inv { s with mem := Function.update s.mem frame page } := by
  have hused : s.frames.Used s.mem frame :=
    hf.elim (h.owned.used .others frame) (h.owned.used .pinned frame)
  obtain ⟨hwf, hothers⟩ := h.frames.write hused page
  exact h.environment ⟨le_rfl, fun _ _ _ hq => hq, fun _ hf => hf⟩ rfl rfl rfl hwf
    (h.owned.mono (fun _ _ ho => ho) hothers) fun _ _ _ hl => .inl hl

theorem mem_filter_ne {l : List ℕ} {f g : ℕ} (h : g ∈ l.filter (· ≠ f)) : g ∈ l ∧ g ≠ f := by
  rw [List.mem_filter] at h
  exact ⟨h.1, by simpa using h.2⟩

theorem Inv.release (h : Inv s) {frame : ℕ} (hf : frame ∈ s.others) :
    Inv { s.freeFrame frame with others := s.others.filter (· ≠ frame) } := by
  obtain ⟨hwf, -, hothers, -⟩ := h.frames.free (h.owned.used .others frame hf) rfl
  refine h.environment ⟨le_rfl, fun _ _ _ hq => hq, fun _ hf => hf⟩ rfl rfl rfl hwf
    (h.owned.release (o := .others) hf (fun o g ho => ?_) hothers) fun _ _ _ hl => .inl hl
  cases o with
  | others =>
    obtain ⟨hmem, hne⟩ := mem_filter_ne ho
    exact ⟨hmem, fun heq => hne heq.2⟩
  | page q => exact ⟨ho, nofun⟩
  | thread j => exact ⟨ho, nofun⟩
  | pinned => exact ⟨ho, nofun⟩

theorem Inv.map (h : Inv s) {pid va frame : ℕ} (hpid : pid < s.procs)
    (hf : frame ∈ s.others ∨ frame ∈ s.pinned) (perm : Perm) (room : ℕ) :
    Inv { s.setSpace pid ((s.spaces pid).map va frame 1 perm none room).2 with
      others := s.others.filter (· ≠ frame), pinned := frame :: s.pinned } := by
  refine h.environment ⟨le_rfl, fun _ _ _ hq => hq, fun _ hf => List.mem_cons_of_mem _ hf⟩ rfl rfl rfl
    h.frames ?_ fun pid' page leaf hleaf => ?_
  · rcases hf with hf | hf
    · refine h.owned.transfer (o := .others) (d := .pinned) hf (fun o g ho => ?_) fun _ hu => hu
      cases o with
      | others =>
        obtain ⟨hmem, hne⟩ := mem_filter_ne ho
        exact .inl ⟨hmem, fun heq => hne heq.2⟩
      | pinned =>
        rcases List.mem_cons.mp ho with rfl | hold
        · exact .inr ⟨rfl, rfl⟩
        · exact .inl ⟨hold, nofun⟩
      | page q => exact .inl ⟨ho, nofun⟩
      | thread j => exact .inl ⟨ho, nofun⟩
    · refine h.owned.mono (fun o g ho => ?_) fun _ hu => hu
      cases o with
      | others => exact (mem_filter_ne ho).1
      | pinned =>
        rcases List.mem_cons.mp ho with rfl | hold
        · exact hf
        · exact hold
      | page q => exact ho
      | thread j => exact ho
  · rcases setSpace_some hleaf with ⟨rfl, hnew⟩ | ⟨-, hold⟩
    · rcases PageMap.map_one hnew with ⟨-, hdvd, -, rfl⟩ | hold
      · exact .inr ⟨⟨hdvd, nofun, fun _ => List.mem_cons_self⟩, hpid, nofun⟩
      · exact .inl hold
    · exact .inl hold

/-! ## Every step -/

/-- A copy to user memory writes to no frame that has been freed. -/
def Sys.WritesUsed (s : Sys) : Act → Prop
  | .run k _ _ =>
    match s.pc k with
    | .writePiece _ leaf => s.frames.Used s.mem leaf.frame
    | _ => True
  | _ => True

theorem Inv.advance (h : Inv s) (disk : Disk) (io : ℕ → Bool) (room : ℕ)
    (hused : s.WritesUsed (.run k io room))
    (hs : s.advance disk k io room (s.pc k) = some s') : Inv s' := by
  unfold Sys.WritesUsed at hused
  dsimp only at hused
  cases hpc : s.pc k with
  | user => rw [hpc] at hs; cases hs
  | faulting c => rw [hpc] at hs; cases hs; exact h.lookUp hpc
  | claimed c => rw [hpc] at hs; cases hs; exact h.readIn hpc disk io
  | failed c => rw [hpc] at hs; cases hs; exact h.giveUp hpc
  | loaded c frame => rw [hpc] at hs; cases hs; exact h.publish hpc
  | mapping c frame => rw [hpc] at hs; cases hs; exact h.mapInto hpc room
  | copyFrom c => rw [hpc] at hs; cases hs; exact h.copyFromHead c
  | copyPiece c leaf =>
    rw [hpc] at hs
    cases hs
    exact h.goto (p := .copyFrom _) rfl (.inl rfl) trivial
  | copyTo c => rw [hpc] at hs; cases hs; exact h.copyToHead c
  | writePiece c leaf =>
    rw [hpc] at hs hused
    cases hs
    exact h.writePiece hpc hused

/-- Every step that writes to no frame that has been freed keeps the invariant. -/
theorem Inv.step (h : Inv s) {disk : Disk} {a : Act} (hused : s.WritesUsed a)
    (hs : s.step disk a = some s') : Inv s' := by
  cases a with
  | create => cases hs; exact h.create
  | openModel start size io =>
    rw [Sys.step] at hs
    cases hs
    split
    · exact h
    · exact h.openModel _ start size
  | modelMap pid id uva =>
    rw [Sys.step] at hs
    split_ifs at hs
    cases hs
    exact h.modelMap pid id uva
  | load k pid va =>
    rw [Sys.step] at hs
    split_ifs at hs with hk
    cases hs
    exact h.load hk.2 va
  | copyFrom k pid uva len =>
    rw [Sys.step] at hs
    split_ifs at hs with hk hlen
    · cases hs
      exact h.answer _ _
    · cases hs
      exact h.goto (p := .copyFrom _) rfl (.inl rfl) trivial
  | copyTo k pid uva data =>
    rw [Sys.step] at hs
    split_ifs at hs with hk
    cases hs
    exact h.goto (p := .copyTo _) rfl (.inl rfl) trivial
  | run k io room => exact h.advance disk io room hused hs
  | reclaim want => cases hs; exact h.reclaim want
  | take => exact h.take disk hs
  | write frame page =>
    rw [Sys.step] at hs
    split_ifs at hs with hf
    cases hs
    exact h.write hf page
  | release frame =>
    rw [Sys.step] at hs
    split_ifs at hs with hf
    cases hs
    exact h.release hf
  | map pid va frame perm room =>
    rw [Sys.step] at hs
    split_ifs at hs with hf
    cases hs
    exact h.map hf.1 hf.2 perm room

theorem Sys.Init.inv (h : s.Init) : Inv s := by
  have hnone : ∀ id i, s.store.pageAt id i = none := by
    intro id i
    rw [h.store]
    rfl
  have howns : ∀ o f, s.Owns o f → o = .others := by
    intro o f ho
    cases o with
    | others => rfl
    | page q => exact absurd ((hnone q.id q.index).symm.trans ho) nofun
    | thread j => rw [Sys.Owns, h.pc] at ho; cases ho
    | pinned => rw [Sys.Owns, h.pinned] at ho; cases ho
  refine ⟨?_, h.frames, ⟨fun o f ho => ?_, fun o o' f ho ho' => ?_⟩, ⟨fun j q hq => ?_, fun j j' q hq => ?_⟩,
    fun pid v hv => ?_, fun pid page leaf hl => ?_, fun j => ?_⟩
  · rw [h.store]
    exact ⟨List.nodup_nil, fun m hm => by cases hm⟩
  · cases howns o f ho
    exact h.others f ho
  · rw [howns o f ho, howns o' f ho']
  · rw [h.pc] at hq
    cases hq
  · rw [h.pc] at hq
    cases hq
  · rw [h.vmas] at hv
    cases hv
  · rw [h.spaces] at hl
    cases hl
  · rw [h.pc]
    trivial

/-! ## Which thread moves -/

/-- A step of a thread moves that thread, and no other. -/
theorem advance_pc {disk : Disk} {io : ℕ → Bool} {room : ℕ}
    (hs : s.advance disk k io room (s.pc k) = some s') :
    ∃ p, s'.pc = Function.update s.pc k p ∧ ((s.pc k).copying = none → p.copying = none) := by
  cases hpc : s.pc k with
  | user => rw [hpc] at hs; cases hs
  | faulting c =>
    rw [hpc] at hs
    cases hs
    unfold Sys.lookUp
    split
    · exact ⟨.user, rfl, fun _ => rfl⟩
    · exact ⟨.mapping c _, rfl, fun _ => rfl⟩
    · exact ⟨s.pc k, (Function.update_eq_self k s.pc).symm, fun _ => by rw [hpc]; rfl⟩
    · exact ⟨.claimed c, rfl, fun _ => rfl⟩
  | claimed c =>
    rw [hpc] at hs
    cases hs
    unfold Sys.readIn
    split
    · exact ⟨.user, rfl, fun _ => rfl⟩
    · split
      · exact ⟨.failed c, rfl, fun _ => rfl⟩
      · split
        · exact ⟨.failed c, rfl, fun _ => rfl⟩
        · exact ⟨.loaded c _, rfl, fun _ => rfl⟩
  | failed c => rw [hpc] at hs; cases hs; exact ⟨.user, rfl, fun _ => rfl⟩
  | loaded c frame =>
    rw [hpc] at hs
    cases hs
    unfold Sys.publish
    split
    · exact ⟨.user, rfl, fun _ => rfl⟩
    · exact ⟨.mapping c frame, rfl, fun _ => rfl⟩
  | mapping c frame =>
    rw [hpc] at hs
    cases hs
    unfold Sys.mapInto
    split_ifs
    · dsimp only
      split <;> exact ⟨.user, rfl, fun _ => rfl⟩
    · exact ⟨.user, rfl, fun _ => rfl⟩
  | copyFrom c =>
    rw [hpc] at hs
    cases hs
    unfold Sys.copyFromHead
    split_ifs
    · split
      · exact ⟨.user, rfl, fun _ => rfl⟩
      · exact ⟨.copyPiece c _, rfl, fun _ => rfl⟩
    · exact ⟨.user, rfl, fun _ => rfl⟩
  | copyPiece c leaf => rw [hpc] at hs; cases hs; exact ⟨.copyFrom _, rfl, fun _ => rfl⟩
  | copyTo c =>
    rw [hpc] at hs
    cases hs
    unfold Sys.copyToHead
    split_ifs
    · split
      · exact ⟨.user, rfl, fun _ => rfl⟩
      · exact ⟨.writePiece c _, rfl, nofun⟩
    · exact ⟨.user, rfl, fun _ => rfl⟩
  | writePiece c leaf => rw [hpc] at hs; cases hs; exact ⟨.copyTo _, rfl, nofun⟩

theorem reclaim_pc (hnumbered : s.store.Numbered) (want : ℕ) : (s.reclaim want).2.pc = s.pc :=
  reclaim_induct (motive := fun t => t.pc = s.pc) hnumbered (fun _ _ _ _ _ ht _ _ => ht) rfl want

/-- Where a page of a process belongs that `demand_fault` asks for. -/
theorem Inv.demand_slot (h : Inv s) {pid va : ℕ} {q : PageId} (hd : demand (s.vmas pid) va = some q) :
    ∃ base, s.store.Maps q.id pid base ∧ pageAlignDown va = base + q.index * PAGE_SIZE := by
  obtain ⟨v, hv, hq⟩ := Option.map_eq_some_iff.mp hd
  have hvalid := h.vmas pid v (List.mem_of_find?_eq_some hv)
  have hcovers : v.start ≤ pageAlignDown va := by
    have := List.find?_some hv
    rw [Vma.covers, decide_eq_true_iff] at this
    exact this.1
  cases hkind : v.kind with
  | model id =>
    rw [hkind] at hq
    subst hq
    refine ⟨v.start, hvalid.maps id hkind, ?_⟩
    have hdvd : PAGE_SIZE ∣ pageAlignDown va - v.start :=
      Nat.dvd_sub (Nat.dvd_mul_left _ _) hvalid.aligned
    dsimp only
    rw [Nat.div_mul_cancel hdvd]
    omega

end

end JungeyOs.ModelStore
