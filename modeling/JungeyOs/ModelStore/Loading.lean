import JungeyOs.ModelStore.Clean
import JungeyOs.ModelStore.Mapped

/-!
# Who reads a page, and how often

A fault claims its page, reads it and publishes it in three sections, with other faults and `reclaim`
in between, and gives the page back where it has no frame or the driver fails. A page that nobody
gives back would keep every later fault waiting.

Results:
* `residentPages_set`: how the count of resident pages moves with the state of one page.
* `loads_step`: every step keeps who is reading which page, and the counts.
* `loading_tracked`: in every run of faults and `reclaim` a page is being read exactly while one thread
  has claimed it, it is read at most once until `reclaim` takes it, the count of resident pages is
  right, and what is published is what is on flash.
-/

namespace JungeyOs.ModelStore

open Mm

/-! ## Resident pages -/

/-- Whether a page counts as resident (`model.rs`, lines 70–75). -/
def PageState.isResident : PageState → Bool
  | .resident _ => true
  | _ => false

/-- `resident_pages` over all models. -/
def Store.residentPages (st : Store) : ℕ := (st.models.map Model.residentPages).sum

section

variable {st : Store} {g : Model → Model} {id index : ℕ}

theorem Model.residentPages_eq (m : Model) : m.residentPages = m.pages.countP PageState.isResident := by
  unfold Model.residentPages
  congr 1

theorem Store.residentPages_modify {m : Model} (hm : st.model id = some m) :
    (st.modify id g).residentPages + m.residentPages = st.residentPages + (g m).residentPages := by
  unfold Store.modify
  rw [hm]
  exact Dir.sum_put Model.residentPages hm

/-- A change that keeps the pages. -/
theorem Store.residentPages_same (hpages : ∀ m, (g m).pages = m.pages) (id : ℕ) :
    (st.modify id g).residentPages = st.residentPages := by
  cases hm : st.model id with
  | none =>
    unfold Store.modify
    rw [hm]
  | some m =>
    have hsum := Store.residentPages_modify (g := g) hm
    have hsame : (g m).residentPages = m.residentPages := by
      rw [Model.residentPages, Model.residentPages, hpages]
    omega

/-- A change of the state of one page. -/
theorem Store.residentPages_set {old p : PageState}
    (hpages : ∀ m, (g m).pages = m.pages.set index p) (hold : st.pageAt id index = some old) :
    (st.modify id g).residentPages + old.isResident.toNat =
      st.residentPages + p.isResident.toNat := by
  obtain ⟨m, hm, hi⟩ := Option.bind_eq_some_iff.mp hold
  obtain ⟨hlt, hi⟩ := List.getElem?_eq_some_iff.mp hi
  have hsum := Store.residentPages_modify (g := g) hm
  have hcount : (g m).residentPages + old.isResident.toNat =
      m.residentPages + p.isResident.toNat := by
    have hle : (if m.pages[index].isResident = true then 1 else 0) ≤
        m.pages.countP PageState.isResident := by
      split_ifs with hres
      · exact List.countP_pos_iff.mpr ⟨_, List.getElem_mem hlt, hres⟩
      · exact Nat.zero_le _
    rw [Model.residentPages_eq, Model.residentPages_eq, hpages, List.countP_set hlt, hi]
    rw [hi] at hle
    generalize m.pages.countP PageState.isResident = n at hle ⊢
    generalize old.isResident = before at hle ⊢
    cases before <;> cases p.isResident <;>
      simp only [reduceIte, Bool.false_eq_true, Bool.toNat_true, Bool.toNat_false] at hle ⊢ <;> omega
  omega

/-- A model that is opened has no page yet. -/
theorem Store.residentPages_enter (hash : UInt64) (start size : ℕ) :
    (st.enter hash start size).2.residentPages = st.residentPages := by
  rcases st.enter_cases hash start size with ⟨m, -, -, heq⟩ | ⟨-, heq⟩
  · rw [heq]
    exact Store.residentPages_same (g := Model.referred) (fun _ => rfl) m.id
  · rw [heq]
    unfold Store.residentPages
    rw [List.map_append, List.sum_append, List.map_singleton, List.sum_singleton,
      Model.residentPages_eq, List.countP_replicate]
    rfl

end

/-! ## The claim -/

namespace Sys

/-- One thread at most reads a page, the page is `Loading` just as long, it has been read at most once
since `reclaim` took it, `RESIDENT` is right, and what a fault publishes, or has published, is what is
on flash. A read that the driver fails part of the way does not count as one. -/
structure Tracked (disk : Disk) (s : Sys) : Prop where
  one : ∀ k k' q, (s.pc k).claim = some q → (s.pc k').claim = some q → k = k'
  loading : ∀ q : PageId, s.store.pageAt q.id q.index = some .loading ↔ ∃ k, (s.pc k).claim = some q
  once : ∀ q, s.reads q ≤ 1
  resident : s.resident = s.store.residentPages
  published : ∀ q frame m, s.Held q frame → s.store.model q.id = some m →
    s.mem frame = filePage disk m.startSector m.size q.index

/-- A page that is `Loading` is being read by a thread, and a page that was read is still there. -/
structure Loads (s : Sys) : Prop where
  claimed : ∀ q : PageId, s.store.pageAt q.id q.index = some .loading → ∃ k, (s.pc k).claim = some q
  once : ∀ q, s.reads q ≤ 1
  held : ∀ q, 0 < s.reads q → ∃ f, s.Held q f
  resident : s.resident = s.store.residentPages

end Sys

section

variable {s s' : Sys} {k : ℕ} {p : Pc} {f : ℕ} {q : PageId} {disk : Disk}

/-! ## What a step leaves alone -/

/-- Every page that is `Loading` was it before, and every page that was read is still there. -/
theorem Sys.Loads.kept (h : s.Loads)
    (hloading : ∀ q : PageId, s'.store.pageAt q.id q.index = some .loading →
      s.store.pageAt q.id q.index = some .loading)
    (hclaims : ∀ j q, (s.pc j).claim = some q → (s'.pc j).claim = some q)
    (hheld : ∀ q f, s.Held q f → s'.Held q f) (hreads : s'.reads = s.reads)
    (hresident : s'.resident + s.store.residentPages = s.resident + s'.store.residentPages) :
    s'.Loads := by
  refine ⟨fun q hq => ?_, fun q => hreads ▸ h.once q, fun q hq => ?_, ?_⟩
  · obtain ⟨j, hj⟩ := h.claimed q (hloading q hq)
    exact ⟨j, hclaims j q hj⟩
  · obtain ⟨f, hf⟩ := h.held q (hreads ▸ hq)
    exact ⟨f, hheld q f hf⟩
  · have := h.resident
    omega

/-- A page in a frame stays there when a thread moves that has none. -/
theorem held_goto (hpc : s'.pc = Function.update s.pc k p) (hframe : (s.pc k).frame = none)
    (hpages : ∀ (q : PageId) f, s.store.pageAt q.id q.index = some (.resident f) →
      s'.store.pageAt q.id q.index = some (.resident f)) (h : s.Held q f) : s'.Held q f := by
  rcases h with hpage | ⟨j, c, hj, hq⟩
  · exact .inl (hpages q f hpage)
  · refine .inr ⟨j, c, ?_, hq⟩
    rw [hpc, Function.update_of_ne, hj]
    rintro rfl
    rw [hj] at hframe
    cases hframe

theorem claims_goto (hpc : s'.pc = Function.update s.pc k p) (hclaim : p.claim = (s.pc k).claim) {j : ℕ}
    (h : (s.pc j).claim = some q) : (s'.pc j).claim = some q := by
  rw [hpc]
  by_cases hj : j = k
  · subst hj
    rw [Function.update_self, hclaim, h]
  · rw [Function.update_of_ne hj, h]

/-- A step of a thread that neither claims a page nor has one in a frame. -/
theorem Sys.Loads.goto (h : s.Loads) (hpc : s'.pc = Function.update s.pc k p)
    (hclaim : p.claim = (s.pc k).claim) (hframe : (s.pc k).frame = none)
    (hpages : ∀ id i, s'.store.pageAt id i = s.store.pageAt id i) (hreads : s'.reads = s.reads)
    (hresident : s'.resident = s.resident)
    (hcount : s'.store.residentPages = s.store.residentPages) : s'.Loads := by
  refine h.kept (fun q hq => (hpages q.id q.index).symm.trans hq)
    (fun j q hj => claims_goto hpc hclaim hj) (fun q f hq => ?_) hreads (by omega)
  exact held_goto hpc hframe (fun q f hp => (hpages q.id q.index).trans hp) hq

/-- A step that moves no thread. -/
theorem Sys.Loads.environment (h : s.Loads) (hpc : s'.pc = s.pc)
    (hloading : ∀ q : PageId, s'.store.pageAt q.id q.index = some .loading →
      s.store.pageAt q.id q.index = some .loading)
    (hpages : ∀ (q : PageId) f, s.store.pageAt q.id q.index = some (.resident f) →
      s'.store.pageAt q.id q.index = some (.resident f)) (hreads : s'.reads = s.reads)
    (hresident : s'.resident = s.resident)
    (hcount : s'.store.residentPages = s.store.residentPages) : s'.Loads := by
  refine h.kept hloading (fun j q hj => by rw [hpc, hj]) (fun q f hq => ?_) hreads (by omega)
  exact hq.imp (hpages q f) fun ⟨j, c, hj, hc⟩ => ⟨j, c, by rw [hpc, hj], hc⟩

/-! ## Faults -/

theorem Sys.Loads.lookUp (h : s.Loads) {c : Fault} (hpc : s.pc k = .faulting c) :
    (s.lookUp k c).Loads := by
  have hclaim : (s.pc k).claim = none := by rw [hpc]; rfl
  have hframe : (s.pc k).frame = none := by rw [hpc]; rfl
  have hfaulted : ∀ id i, (s.store.modify c.id Model.faulted).pageAt id i = s.store.pageAt id i :=
    Store.pageAt_modify (g := Model.faulted) (fun _ => rfl) (fun _ => rfl) c.id
  have hcount := s.store.residentPages_same (g := Model.faulted) (fun _ => rfl) c.id
  unfold Sys.lookUp
  rcases s.store.lookUp_cases c.id c.index with ⟨-, hl⟩ | ⟨frame, -, hl⟩ | ⟨-, hl⟩ | ⟨hpage, hl⟩ <;>
    rw [hl]
  · exact h.goto (p := .user) rfl hclaim.symm hframe (fun _ _ => rfl) rfl rfl rfl
  · exact h.goto (p := .mapping c frame) rfl hclaim.symm hframe hfaulted rfl rfl hcount
  · exact h
  · -- the page is claimed
    have hset := pageAt_set (q := c.toPageId) (x := .loading) ((hfaulted c.id c.index).trans hpage)
    have hcount' := (s.store.modify c.id Model.faulted).residentPages_set
      (g := Model.setPage c.index .loading) (fun _ => rfl)
      ((hfaulted c.id c.index).trans hpage)
    have hheld : ∀ q f, s.Held q f → Sys.Held { s.goto k (.claimed c) with
        store := (s.store.modify c.id Model.faulted).setPage c.id c.index .loading } q f := by
      refine fun q f hq => held_goto (p := .claimed c) rfl hframe (fun q f hp => ?_) hq
      refine (hset q _).mpr (.inr ⟨?_, (hfaulted q.id q.index).trans hp⟩)
      rintro rfl
      rw [hpage] at hp
      cases hp
    refine ⟨fun q hq => ?_, h.once, fun q hq => ?_, ?_⟩
    · rcases (hset q _).mp hq with ⟨rfl, -⟩ | ⟨-, hold⟩
      · refine ⟨k, ?_⟩
        dsimp only [Sys.goto]
        rw [Function.update_self]
        rfl
      · obtain ⟨j, hj⟩ := h.claimed q ((hfaulted q.id q.index).symm.trans hold)
        refine ⟨j, ?_⟩
        dsimp only [Sys.goto]
        rw [Function.update_of_ne, hj]
        rintro rfl
        rw [hclaim] at hj
        cases hj
    · obtain ⟨f, hf⟩ := h.held q hq
      exact ⟨f, hheld q f hf⟩
    · exact h.resident.trans (hcount.symm.trans hcount'.symm)

/-- A page that a thread has claimed and not read yet was not read. -/
theorem Sys.Loads.unread (h : s.Loads) (hi : Inv s) {c : PageId} (hclaim : (s.pc k).claim = some c)
    (hframe : (s.pc k).frame = none) : s.reads c = 0 := by
  by_contra hne
  obtain ⟨f, hpage | ⟨j, c', hj, rfl⟩⟩ := h.held c (Nat.pos_of_ne_zero hne)
  · rw [hi.claims.used k c hclaim] at hpage
    cases hpage
  · have hjk : j = k := hi.claims.apart j k c'.toPageId (by rw [hj]; rfl) hclaim
    rw [← hjk, hj] at hframe
    cases hframe

theorem Sys.Loads.readIn (h : s.Loads) (hi : Inv s) {c : Fault} (hpc : s.pc k = .claimed c)
    (io : ℕ → Bool) : (s.readIn disk k c io).Loads := by
  have hclaim : (s.pc k).claim = some c.toPageId := by rw [hpc]; rfl
  have hframe : (s.pc k).frame = none := by rw [hpc]; rfl
  obtain ⟨m, hm, -⟩ := Option.bind_eq_some_iff.mp (hi.claims.used k c.toPageId hclaim)
  have hmodel : s.store.model c.id = some m := hm
  unfold Sys.readIn
  rw [hmodel]
  dsimp only
  cases s.frames.alloc s.mem with
  | mk r frames =>
    cases r with
    | none =>
      exact h.goto (p := .failed c) rfl hclaim.symm hframe (fun _ _ => rfl) rfl rfl rfl
    | some frame =>
      dsimp only
      cases readPage (readSector disk io) m.startSector m.size c.index with
      | none =>
        exact h.goto (p := .failed c) rfl hclaim.symm hframe (fun _ _ => rfl) rfl rfl rfl
      | some page =>
        have hunread := h.unread hi hclaim hframe
        refine ⟨fun q hq => ?_, fun q => ?_, fun q hq => ?_, h.resident⟩
        · obtain ⟨j, hj⟩ := h.claimed q hq
          exact ⟨j, claims_goto (p := .loaded c frame) rfl hclaim.symm hj⟩
        · dsimp only
          by_cases hq : q = c.toPageId
          · rw [hq, Function.update_self, hunread]
          · rw [Function.update_of_ne hq]
            exact h.once q
        · dsimp only at hq
          by_cases hqc : q = c.toPageId
          · refine ⟨frame, .inr ⟨k, c, ?_, hqc.symm⟩⟩
            dsimp only [Sys.goto]
            rw [Function.update_self]
          · rw [Function.update_of_ne hqc] at hq
            obtain ⟨f, hf⟩ := h.held q hq
            exact ⟨f, held_goto (p := .loaded c frame) rfl hframe (fun _ _ hp => hp) hf⟩

/-- The thread that has claimed a page moves on and claims it no more. -/
theorem Sys.Loads.drop (h : s.Loads) {c : Fault} {x : PageState}
    (hclaim : (s.pc k).claim = some c.toPageId)
    (hloading : s.store.pageAt c.id c.index = some .loading) (hx : x ≠ .loading)
    (hpc : s'.pc = Function.update s.pc k p)
    (hstore : s'.store = s.store.setPage c.id c.index x) (q : PageId)
    (hq : s'.store.pageAt q.id q.index = some .loading) : ∃ j, (s'.pc j).claim = some q := by
  rw [hstore] at hq
  rcases (pageAt_set (q := c.toPageId) hloading q _).mp hq with ⟨-, hx'⟩ | ⟨hne, hold⟩
  · exact absurd hx' hx
  · obtain ⟨j, hj⟩ := h.claimed q hold
    refine ⟨j, ?_⟩
    rw [hpc, Function.update_of_ne, hj]
    rintro rfl
    rw [hclaim] at hj
    exact hne (Option.some.inj hj).symm

theorem Sys.Loads.giveUp (h : s.Loads) (hi : Inv s) {c : Fault} (hpc : s.pc k = .failed c) :
    (s.giveUp k c).Loads := by
  have hclaim : (s.pc k).claim = some c.toPageId := by rw [hpc]; rfl
  have hframe : (s.pc k).frame = none := by rw [hpc]; rfl
  have hloading : s.store.pageAt c.id c.index = some .loading := hi.claims.used k c.toPageId hclaim
  have hcount := s.store.residentPages_set (g := Model.setPage c.index .absent) (fun _ => rfl)
    hloading
  refine ⟨h.drop (p := .user) (x := .absent) hclaim hloading nofun rfl rfl, h.once, fun q hq => ?_,
    h.resident.trans hcount.symm⟩
  obtain ⟨f, hf⟩ := h.held q hq
  refine ⟨f, held_goto (s := s) (p := .user) rfl hframe (fun q f hp => ?_) hf⟩
  refine (pageAt_set (q := c.toPageId) hloading q _).mpr (.inr ⟨?_, hp⟩)
  rintro rfl
  rw [hloading] at hp
  cases hp

theorem Sys.Loads.publish (h : s.Loads) (hi : Inv s) {c : Fault} {frame : ℕ}
    (hpc : s.pc k = .loaded c frame) : (s.publish k c frame).Loads := by
  have hclaim : (s.pc k).claim = some c.toPageId := by rw [hpc]; rfl
  have hloading : s.store.pageAt c.id c.index = some .loading := hi.claims.used k c.toPageId hclaim
  have hset := pageAt_set (q := c.toPageId) (x := .resident frame) hloading
  have hcount := s.store.residentPages_set (g := Model.setPage c.index (.resident frame))
    (fun _ => rfl) hloading
  obtain ⟨m, hm, -⟩ := Option.bind_eq_some_iff.mp hloading
  unfold Sys.publish
  rw [hm]
  refine ⟨h.drop (p := .mapping c frame) (x := .resident frame) hclaim hloading nofun rfl rfl, h.once,
    fun q hq => ?_, ?_⟩
  · obtain ⟨f, hf⟩ := h.held q hq
    rcases hf with hpage | ⟨j, c', hj, rfl⟩
    · refine ⟨f, .inl ((hset q _).mpr (.inr ⟨?_, hpage⟩))⟩
      rintro rfl
      rw [hloading] at hpage
      cases hpage
    · by_cases hjk : j = k
      · -- the page of the thread is resident now
        rw [hjk, hpc] at hj
        cases hj
        exact ⟨_, .inl ((hset _ _).mpr (.inl ⟨rfl, rfl⟩))⟩
      · refine ⟨f, .inr ⟨j, c', ?_, rfl⟩⟩
        dsimp only [Sys.goto]
        rw [Function.update_of_ne hjk, hj]
  · exact (congrArg (· + 1) h.resident).trans hcount.symm

/-! ## `reclaim` -/

theorem Sys.Loads.evict (h : s.Loads) {frame : ℕ}
    (hpage : s.store.pageAt q.id q.index = some (.resident frame)) (mappings : List Mapping) :
    (s.evict q.id mappings q.index frame).Loads := by
  have hset := pageAt_evicted hpage
  have hcount := s.store.residentPages_set (g := Model.evicted q.index) (fun _ => rfl) hpage
  refine ⟨fun r hr => ?_, fun r => ?_, fun r hr => ?_, ?_⟩
  · rcases (hset r _).mp hr with ⟨-, hx⟩ | ⟨-, hold⟩
    · cases hx
    · exact h.claimed r hold
  · dsimp only [Sys.evict]
    by_cases hrq : r = q
    · rw [hrq, Function.update_self]
      exact Nat.zero_le 1
    · rw [Function.update_of_ne hrq]
      exact h.once r
  · dsimp only [Sys.evict] at hr
    by_cases hrq : r = q
    · rw [hrq, Function.update_self] at hr
      cases hr
    · rw [Function.update_of_ne hrq] at hr
      obtain ⟨f, hf⟩ := h.held r hr
      exact ⟨f, hf.imp (fun hp => (hset r _).mpr (.inr ⟨hrq, hp⟩)) id⟩
  · show s.resident - 1 = _
    rw [h.resident]
    exact Nat.sub_eq_of_eq_add hcount.symm

theorem Sys.Loads.reclaim (h : s.Loads) (hi : Inv s) (want : ℕ) : (s.reclaim want).2.Loads :=
  reclaim_induct (motive := Sys.Loads) hi.numbered
    (fun _ id mappings index _ ht _ hpage => ht.evict (q := ⟨id, index⟩) hpage mappings) h want

/-! ## Every step -/

theorem loads_advance (h : s.Loads) (hi : Inv s) {io : ℕ → Bool} {room : ℕ}
    (hs : s.advance disk k io room (s.pc k) = some s') : s'.Loads := by
  cases hpc : s.pc k with
  | user => rw [hpc] at hs; cases hs
  | faulting c => rw [hpc] at hs; cases hs; exact h.lookUp hpc
  | claimed c => rw [hpc] at hs; cases hs; exact h.readIn hi hpc io
  | failed c => rw [hpc] at hs; cases hs; exact h.giveUp hi hpc
  | loaded c frame => rw [hpc] at hs; cases hs; exact h.publish hi hpc
  | mapping c frame =>
    have hclaim : (s.pc k).claim = none := by rw [hpc]; rfl
    have hframe : (s.pc k).frame = none := by rw [hpc]; rfl
    rw [hpc] at hs
    cases hs
    unfold Sys.mapInto
    split_ifs
    · dsimp only
      split <;> exact h.goto (p := .user) rfl hclaim.symm hframe (fun _ _ => rfl) rfl rfl rfl
    · exact h.goto (p := .user) rfl hclaim.symm hframe (fun _ _ => rfl) rfl rfl rfl
  | copyFrom c =>
    have hclaim : (s.pc k).claim = none := by rw [hpc]; rfl
    have hframe : (s.pc k).frame = none := by rw [hpc]; rfl
    rw [hpc] at hs
    cases hs
    unfold Sys.copyFromHead
    split_ifs
    · split
      · exact h.goto (p := .user) rfl hclaim.symm hframe (fun _ _ => rfl) rfl rfl rfl
      · exact h.goto (p := .copyPiece c _) rfl hclaim.symm hframe (fun _ _ => rfl) rfl rfl rfl
    · exact h.goto (p := .user) rfl hclaim.symm hframe (fun _ _ => rfl) rfl rfl rfl
  | copyPiece c leaf =>
    have hclaim : (s.pc k).claim = none := by rw [hpc]; rfl
    have hframe : (s.pc k).frame = none := by rw [hpc]; rfl
    rw [hpc] at hs
    cases hs
    exact h.goto (p := .copyFrom _) rfl hclaim.symm hframe (fun _ _ => rfl) rfl rfl rfl
  | copyTo c =>
    have hclaim : (s.pc k).claim = none := by rw [hpc]; rfl
    have hframe : (s.pc k).frame = none := by rw [hpc]; rfl
    rw [hpc] at hs
    cases hs
    unfold Sys.copyToHead
    split_ifs
    · split
      · exact h.goto (p := .user) rfl hclaim.symm hframe (fun _ _ => rfl) rfl rfl rfl
      · exact h.goto (p := .writePiece c _) rfl hclaim.symm hframe (fun _ _ => rfl) rfl rfl rfl
    · exact h.goto (p := .user) rfl hclaim.symm hframe (fun _ _ => rfl) rfl rfl rfl
  | writePiece c leaf =>
    have hclaim : (s.pc k).claim = none := by rw [hpc]; rfl
    have hframe : (s.pc k).frame = none := by rw [hpc]; rfl
    rw [hpc] at hs
    cases hs
    exact h.goto (p := .copyTo _) rfl hclaim.symm hframe (fun _ _ => rfl) rfl rfl rfl

/-- A step of the rest of the kernel that leaves the store alone. -/
theorem Sys.Loads.stays (h : s.Loads) (hpc : s'.pc = s.pc) (hstore : s'.store = s.store)
    (hreads : s'.reads = s.reads) (hresident : s'.resident = s.resident) : s'.Loads := by
  refine h.environment hpc (fun q hq => ?_) (fun q f hq => ?_) hreads hresident (by rw [hstore])
  · rwa [hstore] at hq
  · rwa [hstore]

theorem loads_step (h : s.Loads) (hi : Inv s) {a : Act} (hs : s.step disk a = some s') :
    s'.Loads := by
  cases a with
  | run k io room => exact loads_advance h hi hs
  | reclaim want => cases hs; exact h.reclaim hi want
  | create => cases hs; exact h.stays rfl rfl rfl rfl
  | openModel start size io =>
    cases hs
    cases hashFile (readSector disk io) start size with
    | none => exact h
    | some hash =>
      refine h.environment rfl (fun q hq => ?_) (fun q f hq => ?_) rfl rfl
        (Store.residentPages_enter hash start size)
      · rcases s.store.pageAt_enter hash start size hq with hold | ⟨habsent, -⟩
        · exact hold
        · cases habsent
      · obtain ⟨m, hm, hi⟩ := Option.bind_eq_some_iff.mp hq
        obtain ⟨refs, hm'⟩ := s.store.model_enter hash start size hm
        exact Option.bind_eq_some_iff.mpr ⟨_, hm', hi⟩
  | modelMap pid id uva =>
    rw [Sys.step] at hs
    split_ifs at hs
    cases hs
    unfold Sys.modelMap Store.attach
    split_ifs
    · exact h
    · cases s.store.model id with
      | none => exact h
      | some m =>
        have hpages : ∀ id' i, (s.store.modify id (Model.attached ⟨pid, uva⟩)).pageAt id' i =
            s.store.pageAt id' i :=
          Store.pageAt_modify (g := Model.attached ⟨pid, uva⟩) (fun _ => rfl) (fun _ => rfl) id
        exact h.environment rfl (fun q hq => (hpages q.id q.index).symm.trans hq)
          (fun q f hq => (hpages q.id q.index).trans hq) rfl rfl
          (s.store.residentPages_same (g := Model.attached ⟨pid, uva⟩) (fun _ => rfl) id)
  | load k pid va =>
    rw [Sys.step] at hs
    split_ifs at hs with hk
    have hclaim : (s.pc k).claim = none := by rw [hk.1]; rfl
    have hframe : (s.pc k).frame = none := by rw [hk.1]; rfl
    cases hs
    unfold Sys.load
    split
    · exact h.goto (p := .user) rfl hclaim.symm hframe (fun _ _ => rfl) rfl rfl rfl
    · split
      · exact h.goto (p := .user) rfl hclaim.symm hframe (fun _ _ => rfl) rfl rfl rfl
      · exact h.goto (p := .faulting _) rfl hclaim.symm hframe (fun _ _ => rfl) rfl rfl rfl
  | copyFrom k pid uva len =>
    rw [Sys.step] at hs
    split_ifs at hs with hk
    · have hclaim : (s.pc k).claim = none := by rw [hk.1]; rfl
      have hframe : (s.pc k).frame = none := by rw [hk.1]; rfl
      cases hs
      exact h.goto (p := .user) rfl hclaim.symm hframe (fun _ _ => rfl) rfl rfl rfl
    · have hclaim : (s.pc k).claim = none := by rw [hk.1]; rfl
      have hframe : (s.pc k).frame = none := by rw [hk.1]; rfl
      cases hs
      exact h.goto (p := .copyFrom _) rfl hclaim.symm hframe (fun _ _ => rfl) rfl rfl rfl
  | copyTo k pid uva data =>
    rw [Sys.step] at hs
    split_ifs at hs with hk
    have hclaim : (s.pc k).claim = none := by rw [hk.1]; rfl
    have hframe : (s.pc k).frame = none := by rw [hk.1]; rfl
    cases hs
    exact h.goto (p := .copyTo _) rfl hclaim.symm hframe (fun _ _ => rfl) rfl rfl rfl
  | take =>
    rw [Sys.step] at hs
    split at hs <;>
    · cases hs
      exact h.stays rfl rfl rfl rfl
  | write frame page =>
    rw [Sys.step] at hs
    split_ifs at hs
    cases hs
    exact h.stays rfl rfl rfl rfl
  | release frame =>
    rw [Sys.step] at hs
    split_ifs at hs
    cases hs
    exact h.stays rfl rfl rfl rfl
  | map pid va frame perm room =>
    rw [Sys.step] at hs
    split_ifs at hs
    cases hs
    exact h.stays rfl rfl rfl rfl

theorem Sys.Init.loads (h : s.Init) : s.Loads := by
  refine ⟨fun q hq => ?_, fun q => by rw [h.reads]; exact Nat.zero_le 1, fun q hq => ?_, ?_⟩
  · rw [h.store] at hq
    cases hq
  · rw [h.reads] at hq
    cases hq
  · rw [h.resident, h.store]
    rfl

/-! ## Runs -/

/-- Without copies to user memory nothing is written to a page of a model. -/
theorem Sys.NoCopies.sparesModels (h : s.NoCopies) (a : Act) : s.SparesModels a := by
  unfold Sys.SparesModels
  cases a with
  | run k io room =>
    dsimp only
    cases hpc : s.pc k with
    | writePiece c leaf =>
      have hk := h k
      rw [hpc] at hk
      cases hk
    | _ => trivial
  | _ => trivial

end

/-- In every run of faults on any number of threads and of `reclaim`, with reads of the driver and
allocations of frames that may fail: no two threads read one page, a page is `Loading` exactly while a
thread has claimed it and has neither published it nor given it back, it is read at most once between
two times that `reclaim` takes it, `RESIDENT` is how many pages are resident, and a page that is
published holds the bytes of its file, and 0 past its end. -/
theorem loading_tracked (disk : Disk) {s : Sys}
    (h : Run.Reachable (Sys.pagingStep disk) Run.always Sys.Init s) : s.Tracked disk := by
  have hall : (Inv s ∧ s.NoCopies) ∧ s.Loads ∧ s.Faithful disk := by
    refine h.invariant (fun s => (Inv s ∧ s.NoCopies) ∧ s.Loads ∧ s.Faithful disk) (fun s hs => ?_)
      fun s a s' ⟨⟨hi, hcopies⟩, hloads, hfaithful⟩ _ hstep => ?_
    · refine ⟨⟨hs.inv, fun k => by rw [hs.pc]; rfl⟩, hs.loads, fun q f m _ hm => ?_⟩
      rw [hs.store] at hm
      cases hm
    · have hstep' := step_of_pagingStep hstep
      exact ⟨⟨hi.step (hcopies.writesUsed a) hstep', hcopies.step hi hstep⟩,
        loads_step hloads hi hstep', faithful_step hfaithful hi (hcopies.sparesModels a) hstep'⟩
  obtain ⟨⟨hi, -⟩, hloads, hfaithful⟩ := hall
  exact ⟨hi.claims.apart, fun q => ⟨hloads.claimed q, fun ⟨k, hk⟩ => hi.claims.used k q hk⟩,
    hloads.once, hloads.resident, hfaithful⟩

/-- Two threads fault for one page, one after the other, and the driver fails the first read. -/
def demoTwice : List Act :=
  [.create, .openModel 64 600 fun _ => true, .modelMap 0 1 0, .load 0 0 8, .load 1 0 9,
    .run 0 (fun _ => true) 1, .run 1 (fun _ => true) 1, .run 0 (fun _ => false) 1,
    .run 0 (fun _ => true) 1, .run 1 (fun _ => true) 1, .run 1 (fun _ => true) 1]

theorem loading_tracked_demoTwice : ∃ s,
    Run.exec (Sys.pagingStep demoDisk) demoBoot demoTwice = some s ∧ s.reads ⟨1, 0⟩ = 1 ∧
    s.Tracked demoDisk := by
  have hrun : (Run.exec (Sys.pagingStep demoDisk) demoBoot demoTwice).map (fun s =>
      s.reads ⟨1, 0⟩) = some 1 := by
    rfl
  obtain ⟨s, hs, hreads⟩ := Option.map_eq_some_iff.mp hrun
  exact ⟨s, hs, hreads, loading_tracked demoDisk (Run.reachable_of_exec init_demoBoot hs)⟩

end JungeyOs.ModelStore
