import JungeyOs.ModelStore.Clean
import JungeyOs.ModelStore.Kept
import JungeyOs.ModelStore.Mapped

/-!
# What the processes see of the model store

A process loads from a page that `reclaim` has taken as from one that it has not touched: a fault reads
the page again. The copies of the kernel do not fault; they go by the page tables alone.

Results:
* `sound_step`: the entries of the models' pages map what is on flash.
* `view_step`: a step is to the processes what it is on a machine that keeps every page, where it finds
  the pages that it uses.
-/

namespace JungeyOs.ModelStore

open Mm

/-! ## The conditions -/

namespace Sys

/-- The device reads, and the allocator has frames for a fault. -/
def Served (s : Sys) : Act → Prop
  | .openModel _ _ io => ∀ sector, io sector = true
  | .run k io room =>
    match s.pc k with
    | .claimed _ => (∀ sector, io sector = true) ∧ (s.frames.alloc s.mem).1.isSome
    | .mapping _ _ => 0 < room
    | _ => True
  | _ => True

/-- Where a step uses a page that the process would have without `reclaim`, it finds it: a load finds
it or faults for it, the kernel finds it for its copies, and neither a copy nor a fault goes on with a
frame that the page has lost. -/
def Undisturbed (s : Sys) (i : Kept) : Act → Prop
  | .load _ pid va => s.entry pid va = none → i.entry pid va = none ∨
      ∃ q, i.entry pid va = some (some q) ∧ demand (s.vmas pid) va = some q
  | .run k _ _ =>
    match s.pc k with
    | .copyFrom c => c.out.length < c.len → (i.pages c.pid (pageOf (c.uva + c.out.length))).isSome →
        (s.spaces c.pid (pageOf (c.uva + c.out.length))).isSome
    | .copyTo c => c.done < c.data.length → (i.pages c.pid (pageOf (c.uva + c.done))).isSome →
        (s.spaces c.pid (pageOf (c.uva + c.done))).isSome
    | .copyPiece _ leaf => ∀ q, leaf.tag = some q →
        s.store.pageAt q.id q.index = some (.resident leaf.frame)
    | .mapping c frame => s.store.pageAt c.id c.index = some (.resident frame)
    | _ => True
  | _ => True

/-- The kernel's side: the entries of the models' pages map what is on flash. -/
structure Sound (disk : Disk) (s : Sys) : Prop where
  inv : Inv s
  faithful : s.Faithful disk
  agrees : s.Agrees

end Sys

/-- The processes' side: what they have and have been answered on a machine that keeps every page. -/
structure View (s : Sys) (i : Kept) : Prop where
  models : SameModels s.store i.store
  vmas : s.vmas = i.vmas
  whole : i.Whole
  alive : ∀ k c, s.pc k ≠ .failed c
  pages : ∀ pid page leaf, s.spaces pid page = some leaf → i.pages pid page = some leaf.tag
  tasks : ∀ k, (s.pc k).task = i.task k
  log : s.log = i.log

section

variable {s s' : Sys} {i : Kept} {k : ℕ} {p : Pc} {q : PageId} {disk : Disk}

theorem Sys.Undisturbed.current {io : ℕ → Bool} {room : ℕ} (h : s.Undisturbed i (.run k io room)) :
    s.Current (.run k io room) := by
  unfold Sys.Undisturbed at h
  unfold Sys.Current
  dsimp only at h ⊢
  cases hpc : s.pc k with
  | mapping c frame =>
    rw [hpc] at h
    exact fun _ => h
  | _ => trivial

theorem sound_step (h : s.Sound disk) {a : Act} (hspares : s.SparesModels a)
    (hcurrent : s.Undisturbed i a) (hs : s.step disk a = some s') : s'.Sound disk := by
  have hinv : Inv s' := h.inv.step (hspares.writesUsed h.inv) hs
  refine ⟨hinv, faithful_step h.faithful h.inv hspares hs, (agrees_step h.inv h.agrees hinv hs).mpr ?_⟩
  cases a with
  | run k io room => exact hcurrent.current
  | _ => trivial

/-! ## Steps that the processes do not see -/

theorem View.quiet (h : View s i) (hmodels : SameModels s'.store s.store) (hvmas : s'.vmas = s.vmas)
    (hspaces : ∀ pid page leaf, s'.spaces pid page = some leaf → s.spaces pid page = some leaf)
    (hpc : s'.pc = s.pc) (hlog : s'.log = s.log) : View s' i :=
  ⟨hmodels.trans h.models, hvmas.trans h.vmas, h.whole, hpc ▸ h.alive,
    fun pid page leaf hleaf => h.pages pid page leaf (hspaces pid page leaf hleaf), hpc ▸ h.tasks,
    hlog.trans h.log⟩

/-- A thread goes on, and the process with it. -/
theorem View.goto (h : View s i) (hp : ∀ c, p ≠ .failed c) : View (s.goto k p) (i.goto k p.task) := by
  refine ⟨h.models, h.vmas, h.whole.kept rfl rfl, fun j c => ?_, h.pages, fun j => ?_, h.log⟩
  · show Function.update s.pc k p j ≠ .failed c
    by_cases hj : j = k
    · rw [hj, Function.update_self]
      exact hp c
    · rw [Function.update_of_ne hj]
      exact h.alive j c
  · show (Function.update s.pc k p j).task = Function.update i.task k p.task j
    by_cases hj : j = k
    · rw [hj, Function.update_self, Function.update_self]
    · rw [Function.update_of_ne hj, Function.update_of_ne hj]
      exact h.tasks j

/-- A thread goes on with its fault. -/
theorem View.fault (h : View s i) (hp : ∀ c, p ≠ .failed c) (htask : p.task = (s.pc k).task) :
    View (s.goto k p) i := by
  have hsame : i.goto k p.task = i := by
    unfold Kept.goto
    rw [htask, h.tasks k, Function.update_eq_self]
  have hgoto := h.goto (k := k) hp
  rwa [hsame] at hgoto

theorem View.answer (h : View s i) (r : Request) (a : Answer) :
    View (s.answer k r a) (i.answer k r a) := by
  have hgoto := h.goto (k := k) (p := .user) (by simp)
  refine ⟨hgoto.models, hgoto.vmas, h.whole.kept rfl rfl, hgoto.alive, hgoto.pages, hgoto.tasks, ?_⟩
  show (r, a) :: s.log = (r, a) :: i.log
  rw [h.log]

/-- What a page of a model that is resident holds is what its file holds. -/
theorem View.page (h : View s i) (hsound : s.Sound disk) {frame : ℕ}
    (hpage : s.store.pageAt q.id q.index = some (.resident frame)) : s.mem frame = i.page disk q := by
  have hheld : s.Held q frame := .inl hpage
  obtain ⟨m, hm⟩ := hheld.model hsound.inv
  obtain ⟨m', hm', hfile⟩ := model_of_files h.models.files hm
  obtain ⟨-, -, hsize, hstart, -⟩ := File.mk.inj hfile
  rw [hsound.faithful q frame m hheld hm, Kept.page, hm', ← hsize, ← hstart]

/-- `reclaim` takes entries and pages, and the processes see neither. -/
theorem View.reclaim (h : View s i) (hsound : s.Sound disk) (want : ℕ) : View (s.reclaim want).2 i := by
  refine reclaim_induct (motive := fun t => View t i) hsound.inv.numbered
    (fun t id mappings index frame ht _ _ => ?_) h want
  refine ht.quiet (.modify (g := Model.evicted index) (fun m => ?_) id) rfl
    (fun pid page leaf hleaf => ?_) rfl rfl
  · show File.mk m.id m.hash m.size m.startSector (m.pages.set index .absent).length = m.file
    rw [List.length_set]
    rfl
  · rcases unmapAll_cases t.procs index mappings t.spaces pid page with ⟨-, hnone⟩ | ⟨-, hsame⟩
    · exact absurd (hnone.symm.trans hleaf) nofun
    · exact hsame.symm.trans hleaf

/-! ## Faults -/

theorem View.lookUp (h : View s i) (hsound : s.Sound disk) {c : Fault} (hpc : s.pc k = .faulting c) :
    View (s.lookUp k c) i := by
  have htask : (s.pc k).task = .user := by rw [hpc]; rfl
  unfold Sys.lookUp
  rcases s.store.lookUp_cases c.id c.index with ⟨hnone, -⟩ | ⟨frame, -, hl⟩ | ⟨-, hl⟩ | ⟨-, hl⟩
  · -- the process has mapped no page that the model does not have
    have hc : s.FaultValid c := by
      have hv := hsound.inv.valid k
      rwa [hpc] at hv
    obtain ⟨m, hm, hlt⟩ := h.whole.found (h.vmas ▸ hc.demand)
    obtain ⟨m', hm', hfile⟩ := model_of_files h.models.symm.files hm
    obtain ⟨-, -, -, -, hlength⟩ := File.mk.inj hfile
    rw [Store.pageAt, hm', Option.bind_some, List.getElem?_eq_none_iff] at hnone
    omega
  · rw [hl]
    exact (h.fault (p := .mapping c frame) (by simp) htask.symm).quiet
      (.modify (g := Model.faulted) (fun _ => rfl) c.id) rfl (fun _ _ _ hleaf => hleaf) rfl rfl
  · rw [hl]
    exact h
  · rw [hl]
    have hset : SameModels ((s.store.modify c.id Model.faulted).setPage c.id c.index .loading) s.store :=
      (SameModels.setPage c.id c.index .loading).trans
        (.modify (g := Model.faulted) (fun _ => rfl) c.id)
    exact (h.fault (p := .claimed c) (by simp) htask.symm).quiet hset rfl
      (fun _ _ _ hleaf => hleaf) rfl rfl

theorem View.readIn (h : View s i) (hsound : s.Sound disk) {c : Fault} {io : ℕ → Bool}
    (hpc : s.pc k = .claimed c) (hio : ∀ sector, io sector = true)
    (halloc : (s.frames.alloc s.mem).1.isSome) : View (s.readIn disk k c io) i := by
  have htask : (s.pc k).task = .user := by rw [hpc]; rfl
  have hloading := hsound.inv.claims.used k c.toPageId (by rw [hpc]; rfl)
  obtain ⟨m, hm, -⟩ := Option.bind_eq_some_iff.mp hloading
  unfold Sys.readIn
  rw [show s.store.model c.id = some m from hm]
  dsimp only
  cases ha : s.frames.alloc s.mem with
  | mk r frames =>
    rw [ha] at halloc
    cases r with
    | none => cases halloc
    | some frame =>
      dsimp only
      have hread : (readPage (readSector disk io) m.startSector m.size c.index).isSome :=
        readFrom_up hio
      cases hpage : readPage (readSector disk io) m.startSector m.size c.index with
      | none =>
        rw [hpage] at hread
        cases hread
      | some page =>
        exact (h.fault (p := .loaded c frame) (by simp) htask.symm).quiet ⟨rfl, rfl⟩ rfl
          (fun _ _ _ hleaf => hleaf) rfl rfl

theorem View.publish (h : View s i) (hsound : s.Sound disk) {c : Fault} {frame : ℕ}
    (hpc : s.pc k = .loaded c frame) : View (s.publish k c frame) i := by
  have htask : (s.pc k).task = .user := by rw [hpc]; rfl
  have hloading := hsound.inv.claims.used k c.toPageId (by rw [hpc]; rfl)
  obtain ⟨m, hm, -⟩ := Option.bind_eq_some_iff.mp hloading
  unfold Sys.publish
  rw [show s.store.model c.id = some m from hm]
  exact (h.fault (p := .mapping c frame) (by simp) htask.symm).quiet
    (.setPage c.id c.index (.resident frame)) rfl (fun _ _ _ hleaf => hleaf) rfl rfl

theorem Kept.setPage_self {pid page : ℕ} {source : Option PageId} (h : i.pages pid page = some source) :
    i.setPage pid page source = i := by
  unfold Kept.setPage
  rw [← h, Function.update_eq_self, Function.update_eq_self]

/-- A page of an address space gets an entry. -/
theorem View.setPage (h : View s i) (pid page : ℕ) (leaf : Leaf (Option PageId)) :
    View (s.setSpace pid (Function.update (s.spaces pid) page (some leaf)))
      (i.setPage pid page leaf.tag) := by
  refine ⟨h.models, h.vmas, h.whole.kept rfl rfl, h.alive, fun pid' page' leaf' hleaf => ?_, h.tasks,
    h.log⟩
  show Function.update i.pages pid _ pid' page' = _
  rcases setSpace_some hleaf with ⟨rfl, hnew⟩ | ⟨hpid, hold⟩
  · rw [Function.update_self]
    by_cases hpage : page' = page
    · subst hpage
      rw [Function.update_self] at hnew ⊢
      cases hnew
      rfl
    · rw [Function.update_of_ne hpage] at hnew ⊢
      exact h.pages pid' page' leaf' hnew
  · rw [Function.update_of_ne hpid]
    exact h.pages pid' page' leaf' hold

/-- A fault maps its page, where there is room for the page tables. -/
theorem mapInto_eq (hsound : s.Sound disk) {c : Fault} {frame room : ℕ} (hpc : s.pc k = .mapping c frame)
    (hroom : 0 < room) : s.mapInto k c frame room =
      (s.setSpace c.pid (Function.update (s.spaces c.pid) (pageOf c.va)
        (some ⟨frame, .UserReadOnly, some c.toPageId⟩))).goto k .user := by
  obtain ⟨hc, haligned⟩ : s.FaultValid c ∧ PAGE_SIZE ∣ frame := by
    have hv := hsound.inv.valid k
    rwa [hpc] at hv
  have hmap : (s.spaces c.pid).map (pageAlignDown c.va) frame 1 .UserReadOnly (some c.toPageId) room = _ :=
    PageMap.map_page _ _ _ (Nat.mul_mod_left _ _) (Nat.mod_eq_zero_of_dvd haligned) hroom
  unfold Sys.mapInto
  dsimp only
  rw [if_pos hc.live, hmap, pageOf_pageAlignDown]

/-- The process has the page then, whether or not it had it before. -/
theorem told_mapping (c : Fault) (frame : ℕ) : (processes disk).told i (s.seeRun i k (.mapping c frame)) =
    i.setPage c.pid (pageOf c.va) (some c.toPageId) := by
  unfold Sys.seeRun
  dsimp only
  split_ifs with hsame
  · exact (Kept.setPage_self hsame).symm
  · rfl

theorem View.mapInto (h : View s i) (hsound : s.Sound disk) {c : Fault} {frame room : ℕ}
    (hpc : s.pc k = .mapping c frame) (hroom : 0 < room) : View (s.mapInto k c frame room)
      ((processes disk).told i (s.seeRun i k (.mapping c frame))) := by
  have htask : (s.pc k).task = .user := by rw [hpc]; rfl
  rw [mapInto_eq hsound hpc hroom, told_mapping]
  exact (h.setPage c.pid (pageOf c.va) ⟨frame, .UserReadOnly, some c.toPageId⟩).fault (p := .user)
    (by simp) htask.symm

/-! ## Loads and copies -/

theorem View.load (h : View s i) (hsound : s.Sound disk) {pid va : ℕ} (hpc : s.pc k = .user)
    (hload : s.Undisturbed i (.load k pid va)) :
    View (s.load k pid va) ((processes disk).told i (s.seeLoad k pid va)) := by
  unfold Sys.load Sys.seeLoad
  cases hentry : s.entry pid va with
  | some leaf =>
    have hkept : i.entry pid va = some leaf.tag ∧ s.spaces pid (pageOf va) = some leaf := by
      unfold Sys.entry at hentry
      unfold Kept.entry
      split_ifs at hentry with hva
      rw [if_pos hva]
      exact ⟨h.pages pid (pageOf va) leaf hentry, hentry⟩
    obtain ⟨hsource, hleaf⟩ := hkept
    show View _ (i.load disk k pid va _)
    unfold Kept.load
    rw [hsource]
    cases htag : leaf.tag with
    | none => exact h.answer _ _
    | some q =>
      have hpage := hsound.agrees.resident pid (pageOf va) leaf q hleaf htag
      dsimp only
      rw [h.page hsound hpage]
      exact h.answer _ _
  | none =>
    cases hd : demand (s.vmas pid) va with
    | none =>
      have hnone : i.entry pid va = none := by
        rcases hload hentry with hnone | ⟨q, -, hq⟩
        · exact hnone
        · rw [hd] at hq
          cases hq
      show View _ (i.load disk k pid va 0)
      unfold Kept.load
      rw [hnone]
      exact h.answer _ _
    | some q =>
      have htask : (s.pc k).task = .user := by rw [hpc]; rfl
      exact h.fault (p := .faulting ⟨q, pid, va⟩) (by simp) htask.symm

theorem View.copyFromHead (h : View s i) {c : CopyFrom} (hfound : c.out.length < c.len →
      (i.pages c.pid (pageOf (c.uva + c.out.length))).isSome →
      (s.spaces c.pid (pageOf (c.uva + c.out.length))).isSome) :
    View (s.copyFromHead k c) (i.copyFromHead k c) := by
  unfold Sys.copyFromHead Kept.copyFromHead
  split_ifs with hlen
  · cases hleaf : s.spaces c.pid (pageOf (c.uva + c.out.length)) with
    | none =>
      have hnone : i.pages c.pid (pageOf (c.uva + c.out.length)) = none := by
        rw [hleaf] at hfound
        exact Option.not_isSome_iff_eq_none.mp fun hsome => absurd (hfound hlen hsome) nofun
      rw [hnone]
      exact h.answer _ _
    | some leaf =>
      rw [h.pages _ _ _ hleaf]
      exact h.goto (p := .copyPiece c leaf) (by simp)
  · exact h.answer _ _

theorem View.copyToHead (h : View s i) {c : CopyTo} (hfound : c.done < c.data.length →
      (i.pages c.pid (pageOf (c.uva + c.done))).isSome →
      (s.spaces c.pid (pageOf (c.uva + c.done))).isSome) :
    View (s.copyToHead k c) (i.copyToHead k c) := by
  unfold Sys.copyToHead Kept.copyToHead
  split_ifs with hlen
  · cases hleaf : s.spaces c.pid (pageOf (c.uva + c.done)) with
    | none =>
      have hnone : i.pages c.pid (pageOf (c.uva + c.done)) = none := by
        rw [hleaf] at hfound
        exact Option.not_isSome_iff_eq_none.mp fun hsome => absurd (hfound hlen hsome) nofun
      rw [hnone]
      exact h.answer _ _
    | some leaf =>
      rw [h.pages _ _ _ hleaf]
      exact h.goto (p := .writePiece c leaf) (by simp)
  · exact h.answer _ _

/-- What is read of a frame. -/
theorem read_leaf {mem : Memory} {frame offset : ℕ} (hframe : PAGE_SIZE ∣ frame) (hoffset : offset < PAGE_SIZE)
    (n : ℕ) : mem.read (frame + offset) n = Memory.read (fun _ => mem frame) offset n := by
  unfold Memory.read
  rw [pageAlignDown_add hframe hoffset, Nat.add_mod, Nat.mod_eq_zero_of_dvd hframe, Nat.zero_add,
    Nat.mod_mod]

theorem View.copyPiece (h : View s i) (hsound : s.Sound disk) {c : CopyFrom}
    {leaf : Leaf (Option PageId)} (hpc : s.pc k = .copyPiece c leaf)
    (hresident : ∀ q, leaf.tag = some q → s.store.pageAt q.id q.index = some (.resident leaf.frame)) :
    View (s.copyPiece k c leaf) (i.copyPiece disk k c (s.readOther c leaf) leaf.tag) := by
  have hl : s.LeafValid leaf := by
    have hv := hsound.inv.valid k
    rwa [hpc] at hv
  unfold Sys.copyPiece Sys.readOther Kept.copyPiece
  dsimp only
  cases htag : leaf.tag with
  | none =>
    rw [if_pos rfl]
    exact h.goto (p := .copyFrom _) (by simp)
  | some q =>
    dsimp only
    rw [read_leaf hl.aligned (Nat.mod_lt _ (by decide)), h.page hsound (hresident q htag)]
    exact h.goto (p := .copyFrom _) (by simp)

/-! ## Every step -/

theorem View.advance (h : View s i) (hsound : s.Sound disk) {io : ℕ → Bool} {room : ℕ}
    (hserved : s.Served (.run k io room)) (hok : s.Undisturbed i (.run k io room))
    (hs : s.advance disk k io room (s.pc k) = some s') :
    View s' ((processes disk).told i (s.seeRun i k (s.pc k))) := by
  unfold Sys.Served at hserved
  unfold Sys.Undisturbed at hok
  dsimp only at hserved hok
  -- a copy goes on where the process has it
  have htask := h.tasks k
  have hcopy : ∀ other, (processes disk).told i (some (.copy k other)) =
      i.copy disk k other (s.pc k).task := fun other => by rw [htask]; rfl
  cases hpc : s.pc k with
  | user => rw [hpc] at hs; cases hs
  | faulting c => rw [hpc] at hs; cases hs; exact h.lookUp hsound hpc
  | claimed c =>
    rw [hpc] at hs hserved
    cases hs
    exact h.readIn hsound hpc hserved.1 hserved.2
  | failed c => exact absurd hpc (h.alive k c)
  | loaded c frame => rw [hpc] at hs; cases hs; exact h.publish hsound hpc
  | mapping c frame =>
    rw [hpc] at hs hserved
    cases hs
    exact h.mapInto hsound hpc hserved
  | copyFrom c =>
    rw [hpc] at hs hok hcopy
    cases hs
    rw [Sys.seeRun, hcopy]
    exact h.copyFromHead hok
  | copyPiece c leaf =>
    rw [hpc] at hs hok hcopy
    cases hs
    rw [Sys.seeRun, hcopy]
    exact h.copyPiece hsound hpc hok
  | copyTo c =>
    rw [hpc] at hs hok hcopy
    cases hs
    rw [Sys.seeRun, hcopy]
    exact h.copyToHead hok
  | writePiece c leaf =>
    rw [hpc] at hs hcopy
    cases hs
    rw [Sys.seeRun, hcopy]
    exact (h.goto (k := k) (p := .copyTo _) (by simp)).quiet ⟨rfl, rfl⟩ rfl
      (fun _ _ _ hleaf => hleaf) rfl rfl

theorem View.openModel (h : View s i) (hash : UInt64) (start size : ℕ) :
    View { s with store := (s.store.enter hash start size).2 }
      { i with store := (i.store.enter hash start size).2 } :=
  ⟨h.models.enter hash start size, h.vmas, h.whole.openModel hash start size, h.alive, h.pages, h.tasks,
    h.log⟩

theorem View.modelMap (h : View s i) (pid id uva : ℕ) : View (s.modelMap pid id uva) (i.modelMap pid id uva) := by
  have hwhole := h.whole.modelMap pid id uva
  unfold Sys.modelMap Store.attach
  unfold Kept.modelMap at hwhole ⊢
  split_ifs at hwhole ⊢
  · exact h
  · cases hm : s.store.model id with
    | none =>
      rw [model_none_of_files h.models.files hm]
      exact h
    | some m =>
      obtain ⟨m', hm', hfile⟩ := model_of_files h.models.files hm
      obtain ⟨-, -, hsize, -, -⟩ := File.mk.inj hfile
      rw [hm'] at hwhole ⊢
      dsimp only at hwhole ⊢
      refine ⟨(SameModels.modify (g := Model.attached ⟨pid, uva⟩) (fun _ => rfl) id).trans h.models, ?_,
        hwhole, h.alive, h.pages, h.tasks, h.log⟩
      dsimp only
      rw [h.vmas, hsize]

/-- Every step is to the processes what it is on a machine that keeps every page, where it finds the
pages that it uses. -/
theorem view_step (h : View s i) (hsound : s.Sound disk) {a : Act} (hserved : s.Served a)
    (hok : s.Undisturbed i a) (hs : s.step disk a = some s') :
    View s' ((processes disk).told i (s.see i a)) := by
  cases a with
  | run k io room => exact h.advance hsound hserved hok hs
  | create => cases hs; exact h.quiet ⟨rfl, rfl⟩ rfl (fun _ _ _ hleaf => hleaf) rfl rfl
  | openModel start size io =>
    cases hs
    have hio : io = fun _ => true := funext hserved
    show View _ (i.after disk (.openModel start size))
    rw [hio, Kept.after]
    cases hashFile (readSector disk fun _ => true) start size with
    | none => exact h
    | some hash => exact h.openModel hash start size
  | modelMap pid id uva =>
    rw [Sys.step] at hs
    split_ifs at hs
    cases hs
    exact h.modelMap pid id uva
  | load k pid va =>
    rw [Sys.step] at hs
    split_ifs at hs with hk
    cases hs
    exact h.load hsound hk.1 hok
  | copyFrom k pid uva len =>
    rw [Sys.step] at hs
    split_ifs at hs with hk hlen
    · cases hs
      show View _ (if MAX_TRANSFER < len then _ else _)
      rw [if_pos hlen]
      exact h.answer _ _
    · cases hs
      show View _ (if MAX_TRANSFER < len then _ else _)
      rw [if_neg hlen]
      exact h.goto (p := .copyFrom _) (by simp)
  | copyTo k pid uva data =>
    rw [Sys.step] at hs
    split_ifs at hs
    cases hs
    exact h.goto (p := .copyTo _) (by simp)
  | reclaim want => cases hs; exact h.reclaim hsound want
  | take =>
    rw [Sys.step] at hs
    split at hs <;>
    · cases hs
      exact h.quiet ⟨rfl, rfl⟩ rfl (fun _ _ _ hleaf => hleaf) rfl rfl
  | write frame page =>
    rw [Sys.step] at hs
    split_ifs at hs
    cases hs
    exact h.quiet ⟨rfl, rfl⟩ rfl (fun _ _ _ hleaf => hleaf) rfl rfl
  | release frame =>
    rw [Sys.step] at hs
    split_ifs at hs
    cases hs
    exact h.quiet ⟨rfl, rfl⟩ rfl (fun _ _ _ hleaf => hleaf) rfl rfl
  | map pid va frame perm room =>
    rw [Sys.step] at hs
    split_ifs at hs with hf
    cases hs
    have haligned : frame % PAGE_SIZE = 0 :=
      Nat.mod_eq_zero_of_dvd (hf.2.elim (hsound.inv.owned.used .others frame)
        (hsound.inv.owned.used .pinned frame)).aligned
    have hmapped : View (s.setSpace pid ((s.spaces pid).map va frame 1 perm none room).2)
        (if va % PAGE_SIZE = 0 ∧ 0 < room then i.setPage pid (pageOf va) none else i) := by
      split_ifs with hroom
      · rw [PageMap.map_page _ _ _ hroom.1 haligned hroom.2]
        exact h.setPage pid (pageOf va) ⟨frame, perm, none⟩
      · -- nothing is mapped
        refine h.quiet ⟨rfl, rfl⟩ rfl (fun pid' page leaf hleaf => ?_) rfl rfl
        rcases setSpace_some hleaf with ⟨rfl, hnew⟩ | ⟨-, hold⟩
        · rcases PageMap.map_eq_some hnew with ⟨⟨hva, -⟩, j, hj, -⟩ | hold
          · exact absurd ⟨hva, by omega⟩ hroom
          · exact hold
        · exact hold
    exact hmapped.quiet ⟨rfl, rfl⟩ rfl (fun _ _ _ hleaf => hleaf) rfl rfl

end

end JungeyOs.ModelStore
