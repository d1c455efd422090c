import JungeyOs.Kv.Coherence

/-!
# Undisturbed threads on the KV cache

A step whose block is still as its thread left it when it let go of the lock is harmless.

Results:
* `inv_step`: the invariant is kept by every step that is not disturbed.
* `coherent_of_undisturbed`: so it holds in every run of such steps.
-/

namespace JungeyOs.Kv

open Mm (Frames Memory Page)

section

variable {s s' : Sys} {k : ℕ} {p : Pc}

/-! ## The steps -/

theorem Inv.room (h : Inv s) {t : Task} {now : ℕ} (hpc : s.pc k = .room t) :
    Inv (s.chooseVictim k t now) := by
  have ht := h.valid k
  rw [hpc] at ht
  unfold Sys.chooseVictim
  cases hc : s.cache.choose 1 now with
  | none =>
    refine h.goto _ h.alike (fun j job _ _ hs => hs.marked) h.same (by rw [hpc]; rfl) (by cases t <;> rfl)
      (by cases t <;> rfl) (by cases t <;> rfl) fun hm => ?_
    cases t with
    | append a => trivial
    | restore r => exact hm.stored ht
  | some chosen =>
    obtain ⟨job, cache⟩ := chosen
    obtain ⟨usedTick, hb, hsector, rfl⟩ := Cache.choose_some hc
    have hset := Alike.set (k := job.si) (g := fun x =>
        { x with blocks := x.blocks.set job.bi (.spilling job.frame job.sector) })
      h.numbered h.counted hb (fun _ => rfl) (fun _ => rfl) rfl rfl
    refine h.quiet rfl ⟨⟨hset.numbered.ids, hset.numbered.next⟩, hset.counted, Nat.le_add_right _ _,
      hset.holds, hset.stored⟩ (fun j job' _ _ hs => ?_) rfl rfl h.frames (fun f hf => ⟨hf, rfl⟩)
      (fun job' hj => ?_) (by rw [hpc]; rfl) rfl rfl fun hm => ?_
    · refine marked_kept (Cache.blockAt_set (fun _ => rfl) hb) (fun frame sector => ?_) hs.marked
      rw [hb]
      nofun
    · cases hj
      exact hsector.ge
    · refine ⟨hm.task ht, ⟨?_, ?_⟩, by decide, fun m hlt => absurd hlt (Nat.not_lt_zero m),
        fun h0 => absurd h0 (Nat.lt_irrefl 0)⟩
      · refine (Cache.blockAt_set (fun _ => rfl) hb job.si job.bi).trans ?_
        rw [if_pos ⟨rfl, rfl⟩]
      · rw [hsector]

theorem Inv.spill (h : Inv s) {t : Task} {job : Job} {now n : ℕ} {io : Io}
    (hpc : s.pc k = .spill t job now n) (hfilled : ¬s.Filling job.frame) :
    Inv (s.spillSector k t job now n io) := by
  have hv := h.valid k
  rw [hpc] at hv
  obtain ⟨ht, hs, hn, hw, -⟩ := hv
  have hpage := h.contents job.si job.bi job.frame ⟨_, hs.marked, rfl⟩ hfilled
  have hjobk : (s.pc k).job = some job := by rw [hpc]; rfl
  have hnone : (s.pc k).filling = none := by rw [hpc]; rfl
  have hframek : (s.pc k).frame = none := by rw [hpc]; rfl
  unfold Sys.spillSector
  dsimp only
  generalize hd : (if io = .lost then s.disk else
    Function.update s.disk (job.sector + n) (sectorOf (s.mem job.frame) n)) = disk
  generalize hp : (if io = .ok then if n + 1 = SECTORS_PER_BLOCK then Pc.settle t job now true
    else .spill t job now (n + 1) else .settle t job now false) = p
  have hpjob : p.job = some job ∧ p.filling = none ∧ p.frame = none := by
    rw [← hp]
    split_ifs <;> exact ⟨rfl, rfl, rfl⟩
  -- only sector `n` of the spill is written
  have hdisk : ∀ x, disk x = s.disk x ∨ x = job.sector + n := by
    intro x
    rw [← hd]
    split_ifs
    · exact .inl rfl
    · by_cases hx : x = job.sector + n
      · exact .inr hx
      · exact .inl (Function.update_of_ne hx _ _)
  have hm : Moves s { s.goto k p with disk := disk } k p := by
    refine ⟨rfl, le_rfl, fun x => ?_, fun _ _ _ _ => rfl, fun job' hj => ?_, fun f hf => ?_,
      fun j job' _ _ hs => hs.marked, fun _ _ _ _ _ _ hb => hb⟩
    · rcases hdisk x with hsame | rfl
      · exact .inl hsame
      · exact .inr ⟨job, hjobk, Nat.le_add_right _ _, by omega⟩
    · rw [hpjob.1] at hj
      exact .inl (hjobk.trans hj)
    · rw [hpjob.2.1] at hf
      cases hf
  refine h.move hm h.numbered h.counted h.frames (h.owned.mono (fun o f ho => ?_) fun f hf => hf)
    (fun i m f hb hf => h.contents_of hm.pc (.inl hnone) hb rfl hf)
    (fun i m sector hb => hm.stored (h.stored i m sector hb)) ?_
  · rcases owns_cases hm.pc rfl ho with ⟨i, m, rfl, hb⟩ | ⟨-, hp⟩ | ⟨hold, -⟩
    · exact hb
    · rw [hpjob.2.2] at hp
      cases hp
    · exact hold
  · have hused := h.used_of_spills hs
    have hs' : Sys.Spills { s.goto k p with disk := disk } job := ⟨hs.marked, hs.below⟩
    have ht' := hm.task ht
    have hf' := hm.notFilling hused hfilled
    have hnext : io = .ok → Written disk (job.si + 1) job.bi job.sector (n + 1) := by
      rintro rfl m hmn
      rw [if_neg (by decide)] at hd
      rw [← hd]
      rcases Nat.lt_succ_iff_lt_or_eq.mp hmn with hlt | rfl
      · rw [Function.update_of_ne (by omega)]
        exact hw m hlt
      · rw [Function.update_self, hpage]
    generalize hs₁ : ({ s.goto k p with disk := disk } : Sys) = s₁ at hs' ht' hf' ⊢
    have hd₁ : s₁.disk = disk := by rw [← hs₁]
    rw [← hp]
    split_ifs with hio hlast
    · refine ⟨ht', hs', fun _ => ⟨?_, hf'⟩⟩
      rw [hd₁, ← hlast]
      exact hnext hio
    · refine ⟨ht', hs', by omega, ?_, fun _ => hf'⟩
      rw [hd₁]
      exact hnext hio
    · exact ⟨ht', hs', nofun⟩

/-- Two threads spill two blocks. -/
theorem Inv.spills_apart (h : Inv s) {j : ℕ} {job job' : Job} (hj : j ≠ k)
    (hjob : (s.pc k).job = some job) (hjob' : (s.pc j).job = some job') (hs : s.Spills job)
    (hs' : s.Spills job') : ¬(job'.si = job.si ∧ job'.bi = job.bi) := by
  rintro ⟨hsi, hbi⟩
  have hmarked := hs'.marked
  rw [hsi, hbi, hs.marked] at hmarked
  have hpos : 0 < SECTORS_PER_BLOCK := by decide
  have hsector : job.sector = job'.sector := (Block.spilling.inj (Option.some.inj hmarked)).2
  rcases h.apart j k job' job hj hjob' hjob with hb | hb <;> omega

/-- A block is on flash, and its frame is freed. -/
theorem Inv.spilled (h : Inv s) {t : Task} {job : Job} {now : ℕ}
    (hpc : s.pc k = .settle t job now true) : Inv (s.settleSpill k t job now true) := by
  have hv := h.valid k
  rw [hpc] at hv
  obtain ⟨ht, hs, hok⟩ := hv
  obtain ⟨hw, hfilled⟩ := hok rfl
  have hjobk : (s.pc k).job = some job := by rw [hpc]; rfl
  have hnone : (s.pc k).filling = none := by rw [hpc]; rfl
  have hheld : s.cache.Holds job.si job.bi job.frame := ⟨_, hs.marked, rfl⟩
  obtain ⟨hwf, -, hused, hmem⟩ := h.frames.free (h.used_of_spills hs) rfl
  have hblocks : ∀ i n, (s.settleSpill k t job now true).cache.blockAt i n =
      if i = job.si ∧ n = job.bi then some (.spilled job.sector) else s.cache.blockAt i n :=
    Cache.blockAt_settle hs.marked now
  -- the frame has no other owner
  have hne : ∀ o f, s.Owns o f → o ≠ .block job.si job.bi → f ≠ job.frame := by
    rintro o f ho hno rfl
    exact hno (h.owned.apart o _ _ ho hheld)
  have hm : Moves s (s.settleSpill k t job now true) k (.room t) := by
    refine ⟨rfl, le_rfl, fun x => .inl rfl, fun j f _ hf => hmem f (hne (.thread j) f hf nofun),
      nofun, nofun, fun j job' hj hjob' hs' => ?_, fun j i n f hj hf hb => ?_⟩
    · rw [hblocks, if_neg (h.spills_apart hj hjobk hjob' hs hs')]
      exact hs'.marked
    · refine (holds_lost hblocks).mpr ⟨hb, ?_⟩
      rintro ⟨rfl, rfl⟩
      obtain ⟨x, hx, hxf⟩ := hb
      rw [hs.marked] at hx
      cases hx
      cases hxf
      exact hfilled ⟨j, hf⟩
  refine h.move hm (h.numbered.settle job now) (Cache.counted_settle hs.marked h.counted now) hwf
    (h.owned.release (o := .block job.si job.bi) (r := job.frame) hheld (fun o f ho => ?_) hused)
    (fun i n f hb hf => ?_) (fun i n sector hb => ?_) (hm.task ht)
  · rcases owns_cases hm.pc rfl ho with ⟨i, n, rfl, hb⟩ | ⟨-, hp⟩ | ⟨hold, -, hother⟩
    · obtain ⟨hb, hkeep⟩ := (holds_lost hblocks).mp hb
      refine ⟨hb, ?_⟩
      rintro ⟨hblock, -⟩
      cases hblock
      exact hkeep ⟨rfl, rfl⟩
    · cases hp
    · exact ⟨hold, fun heq => hother _ _ heq.1⟩
  · obtain ⟨hold, hkeep⟩ := (holds_lost hblocks).mp hb
    refine h.contents_of hm.pc (.inl hnone) hold (hmem f (hne (.block i n) f hold ?_)) hf
    rintro ⟨⟩
    exact hkeep ⟨rfl, rfl⟩
  · rw [hblocks] at hb
    split_ifs at hb with hin
    · obtain ⟨rfl, rfl⟩ := hin
      cases hb
      refine ⟨hs.below.trans hm.next, hw, fun j job' hjob' => ?_⟩
      rw [hm.pc] at hjob'
      by_cases hj : j = k
      · rw [hj, Function.update_self] at hjob'
        cases hjob'
      · rw [Function.update_of_ne hj] at hjob'
        exact h.apart j k job' job hj hjob' hjobk
    · exact hm.stored (h.stored i n sector hb)

theorem Inv.settle (h : Inv s) {t : Task} {job : Job} {now : ℕ} {ok : Bool}
    (hpc : s.pc k = .settle t job now ok) : Inv (s.settleSpill k t job now ok) := by
  cases ok with
  | true => exact h.spilled hpc
  | false =>
    have hv := h.valid k
    rw [hpc] at hv
    obtain ⟨ht, hs, -⟩ := hv
    have hset := Alike.set (k := job.si) (g := fun x =>
        { x with blocks := x.blocks.set job.bi (.resident job.frame now) })
      h.numbered h.counted hs.marked (fun _ => rfl) (fun _ => rfl) rfl rfl
    refine h.goto s.frames hset (fun j job' hj hjob' hs' => ?_) h.same (by rw [hpc]; rfl)
      (by cases t <;> rfl) (by cases t <;> rfl) (by cases t <;> rfl) fun hm => ?_
    · refine (Cache.blockAt_set (fun _ => rfl) hs.marked job'.si job'.bi).trans ?_
      rw [if_neg (h.spills_apart hj (by rw [hpc]; rfl) hjob' hs hs')]
      exact hs'.marked
    · cases t with
      | append a => trivial
      | restore r => exact hm.stored ht

/-- A frame that is allocated and freed again. -/
theorem alloc_free {fr fr' : Frames} {mem : Memory} {f : ℕ} (h : fr.WF mem)
    (ha : fr.alloc mem = (some f, fr')) :
    (fr'.free mem f).1.WF (fr'.free mem f).2 ∧ ∀ g, fr.Used mem g →
      (fr'.free mem f).1.Used (fr'.free mem f).2 g ∧ (fr'.free mem f).2 g = mem g := by
  obtain ⟨hwf, hu, hfree, hkeep⟩ := h.alloc ha
  obtain ⟨hwf', -, hkeep', hmem⟩ := hwf.free hu rfl
  refine ⟨hwf', fun g hg => ?_⟩
  have hne : g ≠ f := by
    rintro rfl
    exact hfree hg
  exact ⟨hkeep' g hne (hkeep g hg), hmem g hne⟩

/-- A block that is appended. -/
theorem Inv.pushed (h : Inv s) {a : Extend} {now f : ℕ} {frames : Frames} {cache : Cache}
    (hnone : (s.pc k).filling = none) (ha : s.frames.alloc s.mem = (some f, frames))
    (hp : s.cache.push a.id (some f) now = .ok cache) :
    Inv { s.goto k (.fill a f (s.cache.blocks (s.cache.find a.id))) with
      cache := cache, frames := frames } := by
  obtain ⟨hwf, hu, hfree, hkeep⟩ := h.frames.alloc ha
  obtain ⟨hnumbered, hcounted, hnext, hid, hnew, hblocks⟩ :=
    Cache.push_ok h.numbered h.counted hp
  have hunheld : ∀ g, ¬s.cache.Holds (s.cache.find a.id) (s.cache.blocks (s.cache.find a.id)) g := by
    rintro g ⟨b, hb, -⟩
    rw [hnew] at hb
    cases hb
  have hm : Moves s { s.goto k (.fill a f (s.cache.blocks (s.cache.find a.id))) with
      cache := cache, frames := frames } k (.fill a f (s.cache.blocks (s.cache.find a.id))) := by
    refine ⟨rfl, hnext.ge, fun x => .inl rfl, fun _ _ _ _ => rfl, nofun, fun g hg => ?_,
      fun j job _ _ hs => ?_, fun j i n g _ _ hb => (holds_gained hblocks hunheld).mpr (.inl hb)⟩
    · cases hg
      exact .inr hfree
    · refine marked_kept hblocks (fun frame sector => ?_) hs.marked
      rw [hnew]
      nofun
  refine h.move hm hnumbered hcounted hwf
    (h.owned.grant (o := .block (s.cache.find a.id) (s.cache.blocks (s.cache.find a.id))) (r := f)
      hfree hu (fun o g ho => ?_) hkeep) (fun i n g hb hf => ?_)
    (fun i n sector hb => hm.stored (h.stored i n sector (stored_kept hblocks hb))) ?_
  · rcases owns_cases hm.pc rfl ho with ⟨i, n, rfl, hb⟩ | ⟨-, hp⟩ | ⟨hold, -⟩
    · rcases (holds_gained hblocks hunheld).mp hb with hold | ⟨rfl, rfl, rfl⟩
      · exact .inl hold
      · exact .inr ⟨rfl, rfl⟩
    · cases hp
    · exact .inl hold
  · rcases (holds_gained hblocks hunheld).mp hb with hold | ⟨rfl, rfl, rfl⟩
    · exact h.contents_of hm.pc (.inl hnone) hold rfl hf
    · exact absurd ⟨k, by rw [hm.pc, Function.update_self]; rfl⟩ hf
  · exact ⟨s.cache.find a.id, hid.symm, (holds_gained hblocks hunheld).mpr (.inr ⟨rfl, rfl, rfl⟩)⟩

theorem Inv.append (h : Inv s) {a : Extend} {now : ℕ} (hpc : s.pc k = .append a) :
    Inv (s.appendBlock k a now) := by
  have hnone : (s.pc k).filling = none := by rw [hpc]; rfl
  dsimp only [Sys.appendBlock]
  by_cases hfull : BUDGET_BLOCKS ≤ s.cache.residentBlocks
  · rw [if_pos hfull]
    cases hp : s.cache.push a.id none now with
    | error why =>
      exact h.goto _ h.alike (fun j job _ _ hs => hs.marked) h.same hnone rfl rfl rfl fun _ => trivial
    | ok cache => exact (Cache.push_none hp).elim
  rw [if_neg hfull]
  cases ha : s.frames.alloc s.mem with
  | mk frame frames =>
    cases frame with
    | none =>
      cases hp : s.cache.push a.id none now with
      | error why =>
        exact h.goto _ h.alike (fun j job _ _ hs => hs.marked) (h.frames.alloc_none ha) hnone rfl rfl rfl
          fun _ => trivial
      | ok cache => exact (Cache.push_none hp).elim
    | some f =>
      cases hp : s.cache.push a.id (some f) now with
      | error why =>
        obtain ⟨hwf, hused⟩ := alloc_free h.frames ha
        exact h.quiet rfl h.alike (fun j job _ _ hs => hs.marked) rfl rfl hwf hused nofun hnone rfl rfl
          fun _ => trivial
      | ok cache =>
        exact h.pushed hnone ha hp

theorem extend_valid (s : Sys) (id added left : ℕ) : (extend id added left).Valid s ∧
    (extend id added left).job = none ∧ (extend id added left).filling = none ∧
    (extend id added left).frame = none := by
  cases left <;> exact ⟨trivial, rfl, rfl, rfl⟩

theorem Inv.fill (h : Inv s) {a : Extend} {f index : ℕ} (hpc : s.pc k = .fill a f index) :
    Inv (s.fillFrame k a f index) := by
  have hv := h.valid k
  rw [hpc] at hv
  obtain ⟨i, hid, hb⟩ := hv
  have hfill : (s.pc k).filling = some f := by rw [hpc]; rfl
  obtain ⟨-, hjob, hnone, hframe⟩ := extend_valid s a.id (a.added + 1) a.left
  refine h.written (o := .block i index) hb nofun ?_ hnone (fun g hg => ?_) (.inl hframe)
    (fun i' n' heq => ?_) fun _ => (extend_valid _ _ _ _).1
  · rw [hjob, hpc]
    rfl
  · rw [hfill] at hg
    exact (Option.some.inj hg).symm
  · cases heq
    rw [hid]

theorem Inv.look (h : Inv s) {q : Request} {now : ℕ} (hpc : s.pc k = .look q) :
    Inv (s.lookAt k q now) := by
  have hnone : (s.pc k).filling = none := by rw [hpc]; rfl
  obtain ⟨halike, hblocks, hfound⟩ := look_alike h.numbered h.counted q.id q.index now
  unfold Sys.lookAt
  cases hl : s.cache.look q.id q.index now with
  | mk r cache =>
    rw [hl] at halike hblocks hfound
    have hmarked : ∀ j job, j ≠ k → (s.pc j).job = some job → s.Spills job →
        cache.blockAt job.si job.bi = some (.spilling job.frame job.sector) :=
      fun j job _ _ hs => (hblocks _ _).trans hs.marked
    cases r with
    | error why =>
      exact h.goto s.frames halike hmarked h.same hnone rfl rfl rfl fun _ => trivial
    | ok b =>
      have hb := hfound b rfl
      cases b with
      | resident frame usedTick =>
        exact h.goto s.frames halike hmarked h.same hnone rfl rfl rfl fun _ => trivial
      | spilling frame sector =>
        refine h.quiet (p := s.pc k) (Function.update_eq_self k s.pc).symm halike hmarked rfl rfl
          h.frames (fun f hf => ⟨hf, rfl⟩) ?_ hnone hnone ?_ fun _ => ?_ <;> rw [hpc]
        · nofun
        · rfl
        · trivial
      | spilled sector =>
        refine h.goto s.frames halike hmarked h.same hnone rfl rfl rfl fun hm => ?_
        have hstored := hm.stored (h.stored _ _ _ hb)
        rw [h.numbered.find_of_blockAt hb] at hstored
        exact hstored

theorem Inv.found (h : Inv s) {q : Request} {now : ℕ} {b : Block} (hpc : s.pc k = .found q b)
    (hstays : ∀ frame usedTick, b = .resident frame usedTick → ∃ usedTick,
      s.cache.blockAt (s.cache.find q.id) q.index = some (.resident frame usedTick))
    (hs : s.takeUp k q now b = some s') : Inv s' := by
  have hv := h.valid k
  rw [hpc] at hv
  have hnone : (s.pc k).filling = none := by rw [hpc]; rfl
  cases b with
  | resident frame usedTick =>
    cases hs
    obtain ⟨usedTick', hold⟩ := hstays frame usedTick rfl
    have hset := Alike.set (k := s.cache.find q.id) (g := fun x =>
        { x with hits := x.hits + 1, blocks := x.blocks.set q.index (.resident frame now) })
      h.numbered h.counted hold (fun _ => rfl) (fun _ => rfl) rfl rfl
    refine h.goto s.frames hset (fun j job _ _ hs => ?_) h.same hnone rfl rfl rfl
      fun _ => trivial
    refine marked_kept (Cache.blockAt_set (fun _ => rfl) hold) (fun frame sector => ?_) hs.marked
    rw [hold]
    nofun
  | spilling frame sector => cases hs
  | spilled sector =>
    cases hs
    exact h.goto s.frames h.alike (fun j job _ _ hs => hs.marked) h.same hnone rfl rfl rfl
      fun hm => hm.stored hv

theorem Inv.alloc (h : Inv s) {r : Restore} (hpc : s.pc k = .alloc r) : Inv (s.allocFrame k r) := by
  have hv := h.valid k
  rw [hpc] at hv
  have hnone : (s.pc k).filling = none := by rw [hpc]; rfl
  unfold Sys.allocFrame
  cases ha : s.frames.alloc s.mem with
  | mk frame frames =>
    cases frame with
    | none =>
      exact h.goto _ h.alike (fun j job _ _ hs => hs.marked) (h.frames.alloc_none ha) hnone rfl rfl rfl
        fun _ => trivial
    | some f =>
      obtain ⟨hwf, hu, hfree, hkeep⟩ := h.frames.alloc ha
      have hm : Moves s { s.goto k (.load r f 0) with frames := frames } k (.load r f 0) :=
        ⟨rfl, le_rfl, fun x => .inl rfl, fun _ _ _ _ => rfl, nofun, nofun,
          fun j job _ _ hs => hs.marked, fun _ _ _ _ _ _ hb => hb⟩
      refine h.move hm h.numbered h.counted hwf ?_
        (fun i n g hb hf => h.contents_of hm.pc (.inl hnone) hb rfl hf)
        (fun i n sector hb => hm.stored (h.stored i n sector hb))
        ⟨hm.stored hv, by decide, fun m hlt => absurd hlt (Nat.not_lt_zero m)⟩
      refine h.owned.grant (o := .thread k) (r := f) hfree hu (fun o g ho => ?_) hkeep
      rcases owns_cases hm.pc rfl ho with ⟨i, n, rfl, hb⟩ | ⟨rfl, hp⟩ | ⟨hold, -⟩
      · exact .inl hb
      · cases hp
        exact .inr ⟨rfl, rfl⟩
      · exact .inl hold

theorem Inv.load (h : Inv s) {r : Restore} {f n : ℕ} {io : Io} (hpc : s.pc k = .load r f n) :
    Inv (s.loadSector k r f n io) := by
  have hv := h.valid k
  rw [hpc] at hv
  obtain ⟨hstored, hn, hsectors⟩ := hv
  have hnone : (s.pc k).filling = none := by rw [hpc]; rfl
  have hframe : (s.pc k).frame = some f := by rw [hpc]; rfl
  unfold Sys.loadSector
  by_cases hio : io = .ok
  · rw [if_pos hio]
    generalize hp : (if n + 1 = SECTORS_PER_BLOCK then Pc.publish r f else .load r f (n + 1)) = p
    have hpjob : p.job = none ∧ p.filling = none ∧ p.frame = some f := by
      rw [← hp]
      split_ifs <;> exact ⟨rfl, rfl, rfl⟩
    refine h.written (o := .thread k) hframe (fun j heq => (Owner.thread.inj heq).symm)
      (by rw [hpjob.1, hpc]; rfl) hpjob.2.1 (fun g hg => ?_) (.inr (hpjob.2.2.trans hframe.symm))
      nofun fun hm => ?_
    · rw [hnone] at hg
      cases hg
    have hstored' := hm.stored hstored
    -- the sectors before this one stay, and this one is as it was written out
    have hpage : ∀ m < n + 1, sectorOf (Function.update s.mem f (Bytes.blit (s.mem f)
        (n * SECTOR_SIZE) (s.disk (r.sector + n))) f) m = sectorOf (filled r.id r.index) m := by
      intro m hmn
      have hsize : SECTORS_PER_BLOCK * SECTOR_SIZE = Mm.PAGE_SIZE := by decide
      have hfit : n * SECTOR_SIZE + SECTOR_SIZE ≤ Mm.PAGE_SIZE := by
        rw [← hsize, ← Nat.succ_mul]
        exact Nat.mul_le_mul_right _ hn
      rw [Function.update_self, sectorOf]
      rcases Nat.lt_succ_iff_lt_or_eq.mp hmn with hlt | rfl
      · rw [Bytes.slice_blit_of_disjoint _ _ _ _ (.inl ?_)]
        · exact hsectors m hlt
        · rw [← Nat.succ_mul]
          exact Nat.mul_le_mul_right _ hlt
      · rw [Bytes.slice_blit_self _ _ _ hfit]
        exact hstored.written m hn
    rw [← hp] at hm hstored' ⊢
    split_ifs with hlast
    · refine ⟨?_, Bytes.ext_of_slices (m := SECTOR_SIZE) (k := SECTORS_PER_BLOCK) (by decide)
        fun m hlt => hpage m (hlast ▸ hlt)⟩
      rw [if_pos hlast] at hstored'
      exact hstored'
    · refine ⟨?_, by omega, hpage⟩
      rw [if_neg hlast] at hstored'
      exact hstored'
  · rw [if_neg hio]
    exact h.freed hframe hnone trivial

/-- A block is in memory again. -/
theorem Inv.publish (h : Inv s) {r : Restore} {f : ℕ} (hpc : s.pc k = .publish r f)
    (hold : s.cache.blockAt (s.cache.find r.id) r.index = some (.spilled r.sector)) :
    Inv (s.publishBlock k r f) := by
  have hv := h.valid k
  rw [hpc] at hv
  obtain ⟨-, hpage⟩ := hv
  have hnone : (s.pc k).filling = none := by rw [hpc]; rfl
  have hframe : (s.pc k).frame = some f := by rw [hpc]; rfl
  have hblocks : ∀ i n, (s.publishBlock k r f).cache.blockAt i n =
      if i = s.cache.find r.id ∧ n = r.index then some (.resident f r.now)
      else s.cache.blockAt i n := Cache.blockAt_publish hold f r.now
  have hunheld : ∀ g, ¬s.cache.Holds (s.cache.find r.id) r.index g := by
    rintro g ⟨b, hb, hbf⟩
    rw [hold] at hb
    cases hb
    cases hbf
  have hm : Moves s (s.publishBlock k r f) k (.copy r.toRequest f false) := by
    refine ⟨rfl, le_rfl, fun x => .inl rfl, fun _ _ _ _ => rfl, nofun, nofun, fun j job _ _ hs => ?_,
      fun j i n g _ _ hb => (holds_gained hblocks hunheld).mpr (.inl hb)⟩
    refine marked_kept hblocks (fun frame sector => ?_) hs.marked
    rw [hold]
    nofun
  refine h.move hm (h.numbered.publish r.id r.index f r.now) (Cache.counted_publish hold h.counted f r.now)
    h.frames
    (h.owned.transfer (o := .thread k) (r := f) (d := .block (s.cache.find r.id) r.index) hframe
      (fun o g ho => ?_) fun g hg => hg) (fun i n g hb hf => ?_)
    (fun i n sector hb => hm.stored (h.stored i n sector (stored_kept hblocks hb))) trivial
  · rcases owns_cases hm.pc rfl ho with ⟨i, n, rfl, hb⟩ | ⟨-, hp⟩ | ⟨hmine, hother, -⟩
    · rcases (holds_gained hblocks hunheld).mp hb with hb | ⟨rfl, rfl, rfl⟩
      · exact .inl ⟨hb, nofun⟩
      · exact .inr ⟨rfl, rfl⟩
    · cases hp
    · exact .inl ⟨hmine, fun heq => hother heq.1⟩
  · rcases (holds_gained hblocks hunheld).mp hb with hb | ⟨rfl, rfl, rfl⟩
    · exact h.contents_of hm.pc (.inl hnone) hb rfl hf
    · rw [h.numbered.find_of_blockAt hold]
      exact hpage

theorem Inv.copy (h : Inv s) {q : Request} {f : ℕ} {hit : Bool} (hpc : s.pc k = .copy q f hit)
    (hb : s.cache.Holds (s.cache.find q.id) q.index f) (hf : ¬s.Filling f) :
    Inv (s.copyOut k q f hit) := by
  have hpage := h.contents _ _ f hb hf
  have hid : s.cache.find q.id + 1 = q.id := by
    obtain ⟨b, hb, -⟩ := hb
    exact h.numbered.find_of_blockAt hb
  rw [hid] at hpage
  refine h.goto s.frames h.alike (fun j job _ _ hs => hs.marked) h.same (by rw [hpc]; rfl)
    rfl rfl rfl fun _ => ?_
  exact congrArg (fun page : Page => page.toList.take q.len) hpage

/-- A step of a thread. -/
theorem Inv.advance (h : Inv s) {now : ℕ} {io : Io} (hok : (s.pc k).Undisturbed s)
    (hs : s.advance k now io (s.pc k) = some s') : Inv s' := by
  cases hpc : s.pc k with
  | idle =>
    rw [hpc] at hs
    cases hs
  | returned reply =>
    rw [hpc] at hs
    cases hs
  | room t =>
    rw [hpc] at hs
    cases hs
    exact h.room hpc
  | spill t job now n =>
    rw [hpc] at hs hok
    cases hs
    exact h.spill hpc hok
  | settle t job now ok =>
    rw [hpc] at hs
    cases hs
    exact h.settle hpc
  | append a =>
    rw [hpc] at hs
    cases hs
    exact h.append hpc
  | fill a frame index =>
    rw [hpc] at hs
    cases hs
    exact h.fill hpc
  | look q =>
    rw [hpc] at hs
    cases hs
    exact h.look hpc
  | found q b =>
    rw [hpc] at hs hok
    refine h.found hpc (fun frame usedTick hb => ?_) hs
    subst hb
    exact hok
  | alloc r =>
    rw [hpc] at hs
    cases hs
    exact h.alloc hpc
  | load r frame n =>
    rw [hpc] at hs
    cases hs
    exact h.load hpc
  | publish r frame =>
    rw [hpc] at hs hok
    cases hs
    exact h.publish hpc hok
  | copy q frame hit =>
    rw [hpc] at hs hok
    cases hs
    exact h.copy hpc hok.1 hok.2

/-- A thread that starts a call. -/
theorem Inv.call (h : Inv s) (hfree : (s.pc k).free = true) (hjob : p.job = none)
    (hnone : p.filling = none) (hframe : p.frame = none) (hvalid : ∀ s, p.Valid s) :
    Inv (s.goto k p) := by
  have hfilling : (s.pc k).filling = none := by
    cases hpc : s.pc k <;> rw [hpc] at hfree <;> first | rfl | cases hfree
  exact h.goto _ h.alike (fun j job _ _ hs => hs.marked) h.same hfilling hjob hnone hframe
    fun _ => hvalid _

theorem inv_step (h : Inv s) {a : Act} (hok : Undisturbed s a) (hs : s.step a = some s') :
    Inv s' := by
  cases a with
  | openSession owner model now =>
    cases hs
    have hblocks := Cache.blockAt_openSession s.cache owner model now
    refine h.rest rfl (h.numbered.openSession owner model now)
      (h.counted.trans (Cache.heldBlocks_openSession s.cache owner model now).symm) le_rfl hblocks rfl
      h.frames (h.owned.mono (fun o f ho => ?_) fun f hf => hf) fun _ _ _ _ => rfl
    cases o with
    | block i n =>
      obtain ⟨b, hb, hbf⟩ := ho
      exact ⟨b, (hblocks i n).symm.trans hb, hbf⟩
    | thread j => exact ho
    | others => exact ho
  | append k id count =>
    simp only [Sys.step] at hs
    split_ifs at hs with hfree
    cases hs
    obtain ⟨-, hjob, hnone, hframe⟩ := extend_valid s id 0 count
    exact h.call hfree hjob hnone hframe fun s => (extend_valid s id 0 count).1
  | read k q =>
    simp only [Sys.step] at hs
    split_ifs at hs with hfree
    cases hs
    exact h.call hfree rfl rfl rfl fun _ => trivial
  | run k now io => exact h.advance hok hs
  | take =>
    simp only [Sys.step] at hs
    cases ha : s.frames.alloc s.mem with
    | mk frame frames =>
      rw [ha] at hs
      cases frame with
      | none =>
        cases hs
        obtain ⟨hwf, hkeep⟩ := h.frames.alloc_none ha
        exact h.rest rfl h.numbered h.counted le_rfl (fun _ _ => rfl) rfl hwf
          (h.owned.mono (fun o f ho => by cases o <;> exact ho) hkeep) fun _ _ _ _ => rfl
      | some f =>
        cases hs
        obtain ⟨hwf, hu, hfree, hkeep⟩ := h.frames.alloc ha
        refine h.rest rfl h.numbered h.counted le_rfl (fun _ _ => rfl) rfl hwf
          (h.owned.grant (o := .others) (r := f) hfree hu (fun o g ho => ?_) hkeep) fun _ _ _ _ => rfl
        cases o with
        | block i n => exact .inl ho
        | thread j => exact .inl ho
        | others =>
          rcases List.mem_cons.mp ho with rfl | hold
          · exact .inr ⟨rfl, rfl⟩
          · exact .inl hold
  | write frame page =>
    simp only [Sys.step] at hs
    split_ifs at hs with hmem
    cases hs
    obtain ⟨hwf, hkeep⟩ := h.frames.write (h.owned.used .others frame hmem) page
    refine h.rest rfl h.numbered h.counted le_rfl (fun _ _ => rfl) rfl hwf
      (h.owned.mono (fun o f ho => by cases o <;> exact ho) hkeep) fun o f hne ho => ?_
    refine Function.update_of_ne ?_ _ _
    rintro rfl
    exact hne (h.owned.apart o .others f ho hmem)
  | release frame =>
    simp only [Sys.step] at hs
    split_ifs at hs with hmem
    cases hs
    obtain ⟨hwf, -, hkeep, hsame⟩ := h.frames.free (h.owned.used .others frame hmem) rfl
    refine h.rest rfl h.numbered h.counted le_rfl (fun _ _ => rfl) rfl hwf
      (h.owned.release (o := .others) (r := frame) hmem (fun o g ho => ?_) hkeep) fun o f hne ho => ?_
    · cases o with
      | block i n => exact ⟨ho, fun heq => nomatch heq.1⟩
      | thread j => exact ⟨ho, fun heq => nomatch heq.1⟩
      | others =>
        obtain ⟨hg, hne⟩ := List.mem_filter.mp ho
        exact ⟨hg, fun heq => of_decide_eq_true hne heq.2⟩
    · refine hsame f ?_
      rintro rfl
      exact hne (h.owned.apart o .others f ho hmem)

theorem inv_init (h : s.Init) : Inv s := by
  obtain ⟨spillStart, spillSectors, hcache⟩ := h.cache
  have hnone : ∀ k i, s.cache.blockAt k i = none := fun k i => by rw [hcache]; rfl
  refine ⟨?_, ?_, h.frames, ⟨fun o f ho => ?_, fun o o' f ho ho' => ?_⟩, ?_, ?_, ?_, fun k => ?_⟩
  · rw [hcache]
    exact ⟨nofun, rfl⟩
  · rw [hcache]
    rfl
  · cases o with
    | block i n =>
      obtain ⟨b, hb, -⟩ := ho
      rw [hnone] at hb
      cases hb
    | thread j =>
      rw [Sys.Owns, h.idle] at ho
      cases ho
    | others => exact h.others f ho
  · have hothers : ∀ o, s.Owns o f → o = .others := by
      intro o ho
      cases o with
      | block i n =>
        obtain ⟨b, hb, -⟩ := ho
        rw [hnone] at hb
        cases hb
      | thread j =>
        rw [Sys.Owns, h.idle] at ho
        cases ho
      | others => rfl
    rw [hothers o ho, hothers o' ho']
  · rintro k i f ⟨b, hb, -⟩
    rw [hnone] at hb
    cases hb
  · intro k i sector hb
    rw [hnone] at hb
    cases hb
  · intro j k job job' _ hjob
    rw [h.idle] at hjob
    cases hjob
  · rw [h.idle]
    trivial

end

/-- In every run in which the threads act on their blocks only as they left them, a read
returns what `append` stored, no frame has two blocks or is free while a block has it, and the
cache counts its blocks. -/
theorem coherent_of_undisturbed {s : Sys} (h : Run.Reachable Sys.step Undisturbed Sys.Init s) :
    s.Coherent := by
  have hinv : Inv s := by
    refine h.invariant Inv (fun s hs => inv_init hs) fun s a s' hi hok hs => inv_step hi hok hs
  exact hinv.coherent

/-! ## Two threads -/

def zeros : Page := Vector.replicate Mm.PAGE_SIZE 0

/-- A small machine at boot. -/
def booted : Sys :=
  { cache := .init 8 64
    frames := ⟨4096, 65536, [], 0, 0⟩
    mem := fun _ => zeros
    disk := fun _ => Vector.replicate SECTOR_SIZE 0
    others := []
    pc := fun _ => .idle }

theorem init_booted : booted.Init := by
  refine ⟨⟨8, 64, rfl⟩, ⟨by decide, ⟨1, rfl⟩, rfl, List.nodup_nil, nofun⟩, nofun, fun _ => rfl⟩

/-- Thread 1 reads the block that thread 0 has appended. -/
def readFilled : List Act :=
  [.openSession 7 1 0, .append 0 1 1, .run 0 0 .ok, .run 0 0 .ok, .run 0 0 .ok,
    .read 1 ⟨1, 0, 1⟩, .run 1 5 .ok, .run 1 5 .ok, .run 1 5 .ok]

theorem coherent_of_undisturbed_readFilled :
    ∃ t, Run.exec Sys.step booted readFilled = some t ∧ t.Coherent := by
  have hstart : Run.Reachable Sys.step Undisturbed Sys.Init booted := .start init_booted
  have hmeets : Run.Meets Sys.step Undisturbed booted readFilled := by
    refine .cons rfl trivial <| .cons rfl trivial <| .cons rfl trivial <| .cons rfl trivial <|
      .cons rfl trivial <| .cons rfl trivial <| .cons rfl trivial <| .cons rfl ⟨0, rfl⟩ <|
      .cons rfl ⟨⟨_, rfl, rfl⟩, ?_⟩ trivial
    rintro ⟨k, hk⟩
    rcases k with _ | _ | k <;> cases hk
  exact ⟨_, rfl, coherent_of_undisturbed (hstart.exec hmeets rfl)⟩

theorem take_one (v : Page) (h : 0 < Mm.PAGE_SIZE) : v.toList.take 1 = [v[0]] := by
  rw [List.take_one, List.head?_eq_getElem?, Vector.getElem?_toList, Vector.getElem?_eq_getElem h]
  rfl

/-- Thread 1 reads the block before thread 0 has filled it. -/
def readEarly : List Act :=
  [.openSession 7 1 0, .append 0 1 1, .run 0 0 .ok, .run 0 0 .ok,
    .read 1 ⟨1, 0, 1⟩, .run 1 5 .ok, .run 1 5 .ok, .run 1 5 .ok]

theorem readEarly_incoherent :
    booted.Init ∧ ∃ t, Run.exec Sys.step booted readEarly = some t ∧
      t.pc 1 = .returned (.read ⟨1, 0, 1⟩ (.ok (true, [0]))) ∧ pattern 1 0 0 = 205 ∧
      ¬t.Coherent := by
  have hread : zeros.toList.take 1 = [0] := by
    rw [take_one zeros (by decide), zeros, Vector.getElem_replicate]
  have hstored : (filled 1 0).toList.take 1 = [pattern 1 0 0] := by
    rw [take_one _ (by decide), filled, Vector.getElem_ofFn]
  refine ⟨init_booted, _, rfl, ?_, by decide, fun h => ?_⟩
  · rw [← hread]
    rfl
  · have hbytes := h.reads 1 ⟨1, 0, 1⟩ true (zeros.toList.take 1) rfl
    rw [hread] at hbytes
    exact absurd (hbytes.trans hstored) (by decide)

end JungeyOs.Kv
