import JungeyOs.Kv.Undisturbed

/-!
# The budget of the KV cache

One thread opens sessions, appends to them and reads from them. `make_room` may return without having
made room: the spill region is used up, or the driver fails. `append` looks at the count again before it
adds a block; `read` does not.

Results:
* `Inv.step`: what every step keeps while each read that finds its block on flash is given room.
* `within_budget_iff`: in a run of one thread the budget holds, and a read without room is refused and
  changes nothing, exactly when each read that puts its block back has room for it, and no write of a
  block that a read wants to evict fails.
* `over_budget`: a read that goes over the budget.
-/

namespace JungeyOs.Kv

/-! ## One thread -/

/-- The system with one thread: `before` is the cache when the call under way began, and `denied` says
that `make_room` has returned to the `read` under way without having made room. -/
structure Solo where
  sys : Sys
  before : Cache
  denied : Bool

/-- `make_room` returns to a `read`, and the budget has no room for its block. -/
def Sys.denies (s : Sys) : Bool :=
  match s.pc 0 with
  | .alloc _ => BUDGET_BLOCKS < s.cache.residentBlocks + 1
  | _ => false

namespace Solo

/-- The thread calls. -/
def start (s : Solo) (sys : Sys) : Solo := ⟨sys, s.sys.cache, false⟩

/-- The thread takes a step in its call. -/
def after (s : Solo) (sys : Sys) : Solo := ⟨sys, s.before, s.denied || sys.denies⟩

def step (s : Solo) : Act → Option Solo
  | .openSession owner model now =>
    if (s.sys.pc 0).free then (s.sys.step (.openSession owner model now)).map s.start else none
  | .append k id count => if k = 0 then (s.sys.step (.append k id count)).map s.start else none
  | .read k q => if k = 0 then (s.sys.step (.read k q)).map s.start else none
  | .run k now io => if k = 0 then (s.sys.step (.run k now io)).map s.after else none
  | a => (s.sys.step a).map fun sys => { s with sys := sys }

/-- At boot. -/
structure Init (s : Solo) : Prop where
  sys : s.sys.Init
  denied : s.denied = false

/-! ## The claim -/

/-- Every block, and the count, is as it was. -/
def Same (c before : Cache) : Prop :=
  (∀ k i, c.blockAt k i = before.blockAt k i) ∧ c.residentBlocks = before.residentBlocks

/-- A read that was not given room has changed no block, and returns `Err`. -/
def Refused (s : Solo) : Prop :=
  s.denied → Same s.sys.cache s.before ∧
    ∀ reply, s.sys.pc 0 = .returned reply → ∃ q why, reply = .read q (.error why)

/-- The blocks in memory, as they are and as they are counted, are within the budget. -/
structure Within (s : Solo) : Prop where
  memory : s.sys.cache.heldBlocks ≤ BUDGET_BLOCKS
  counted : s.sys.cache.residentBlocks ≤ BUDGET_BLOCKS
  refused : s.Refused

/-- Where the thread stands: a read that puts its block back has room for it, and a block that could not be
written out for a read was used at the tick that it is given now. -/
def RoomyAt (s : Solo) : Pc → Prop
  | .publish _ _ => s.sys.cache.residentBlocks < BUDGET_BLOCKS
  | .settle (.restore _) job now false =>
    s.before.blockAt job.si job.bi = some (.resident job.frame now)
  | _ => True

/-- The condition on a step. -/
def Roomy (s : Solo) : Act → Prop
  | .run k _ _ => k = 0 → s.RoomyAt (s.sys.pc 0)
  | _ => True

end Solo

/-! ## The invariant -/

/-- The block that the read has found on flash is there. -/
def OnFlash (c : Cache) (r : Restore) : Prop :=
  ∃ k, r.id = k + 1 ∧ c.blockAt k r.index = some (.spilled r.sector)

/-- The block is marked for the spill, and it is the only one that is not as it was. -/
structure Marks (c before : Cache) (job : Job) : Prop where
  marked : c.blockAt job.si job.bi = some (.spilling job.frame job.sector)
  old : ∃ usedTick, before.blockAt job.si job.bi = some (.resident job.frame usedTick)
  others : ∀ k i, ¬(k = job.si ∧ i = job.bi) → c.blockAt k i = before.blockAt k i
  count : c.residentBlocks = before.residentBlocks

/-- Where the thread stands. -/
def Stands (c before : Cache) (denied : Bool) : Pc → Prop
  | .idle => True
  | .returned _ => True
  | .room (.append _) => ¬denied
  | .room (.restore r) =>
    ¬denied ∧ OnFlash c r ∧ (Solo.Same c before ∨ c.residentBlocks < BUDGET_BLOCKS)
  | .spill (.append _) job _ _ =>
    ¬denied ∧ c.blockAt job.si job.bi = some (.spilling job.frame job.sector)
  | .spill (.restore r) job _ _ =>
    ¬denied ∧ OnFlash c r ∧ Marks c before job ∧ BUDGET_BLOCKS ≤ c.residentBlocks
  | .settle (.append _) job _ _ =>
    ¬denied ∧ c.blockAt job.si job.bi = some (.spilling job.frame job.sector)
  | .settle (.restore r) job _ _ =>
    ¬denied ∧ OnFlash c r ∧ Marks c before job ∧ BUDGET_BLOCKS ≤ c.residentBlocks
  | .append _ => ¬denied
  | .fill _ _ _ => ¬denied
  | .look _ => ¬denied ∧ Solo.Same c before
  | .found q b => ¬denied ∧ Solo.Same c before ∧
      ∃ k, q.id = k + 1 ∧ c.blockAt k q.index = some b
  | .alloc r => OnFlash c r ∧ (denied ↔ BUDGET_BLOCKS ≤ c.residentBlocks)
  | .load r _ _ => OnFlash c r ∧ (denied ↔ BUDGET_BLOCKS ≤ c.residentBlocks)
  | .publish r _ => OnFlash c r ∧ (denied ↔ BUDGET_BLOCKS ≤ c.residentBlocks)
  | .copy _ _ _ => ¬denied

namespace Solo

/-- Where a step takes the thread. -/
theorem pc_at {sys : Sys} {pc : ℕ → Pc} {p : Pc} (h : sys.pc = Function.update pc 0 p) :
    sys.pc 0 = p := by
  rw [h]
  exact Function.update_self 0 p pc

structure Inv (s : Solo) : Prop where
  numbered : s.sys.cache.Numbered
  counted : s.sys.cache.residentBlocks = s.sys.cache.heldBlocks
  bound : s.sys.cache.residentBlocks ≤ BUDGET_BLOCKS
  stands : Stands s.sys.cache s.before s.denied (s.sys.pc 0)

section

variable {s s' : Solo} {sys : Sys} {p : Pc}

theorem Inv.within (h : Inv s) : s.Within ↔ s.Refused :=
  ⟨fun hw => hw.refused, fun hr => ⟨h.counted ▸ h.bound, h.bound, hr⟩⟩

/-- What a step has to keep. -/
def Keeps (s s' : Solo) : Prop := Inv s' ∧ (s.Refused → s'.Refused)

/-- A step after which no read has been denied room. -/
theorem Inv.moved (hnumbered : sys.cache.Numbered)
    (hcounted : sys.cache.residentBlocks = sys.cache.heldBlocks)
    (hbound : sys.cache.residentBlocks ≤ BUDGET_BLOCKS) (hpc : sys.pc 0 = p)
    (hdenied : s.denied = false) (hp : ∀ r, p ≠ .alloc r)
    (hstands : Stands sys.cache s.before false p) : Keeps s (s.after sys) := by
  have hdenies : sys.denies = false := by
    unfold Sys.denies
    rw [hpc]
    cases p with
    | alloc r => exact absurd rfl (hp r)
    | _ => rfl
  have hstill : (s.after sys).denied = false := by
    unfold after
    rw [hdenied, hdenies]
    rfl
  refine ⟨⟨hnumbered, hcounted, hbound, ?_⟩, fun _ hd => ?_⟩
  · rw [hstill]
    show Stands sys.cache s.before false (sys.pc 0)
    rw [hpc]
    exact hstands
  · rw [hstill] at hd
    cases hd

/-- A step that leaves the cache as it is. -/
theorem Inv.stays (h : Inv s) (hcache : sys.cache = s.sys.cache) (hpc : sys.pc 0 = p)
    (hdenied : s.denied = false) (hp : ∀ r, p ≠ .alloc r)
    (hstands : Stands s.sys.cache s.before false p) : Keeps s (s.after sys) :=
  Inv.moved (hcache ▸ h.numbered) (hcache ▸ h.counted) (hcache ▸ h.bound) hpc hdenied hp
    (hcache.symm ▸ hstands)

theorem find_eq {c : Cache} (hn : c.Numbered) {k i : ℕ} {b : Block} (hb : c.blockAt k i = some b) :
    c.find (k + 1) = k := by
  obtain ⟨x, hx, -⟩ := Option.bind_eq_some_iff.mp hb
  obtain ⟨hlt, hget⟩ := List.getElem?_eq_some_iff.mp hx
  unfold Cache.find
  refine (List.findIdx_eq hlt).mpr ⟨?_, fun j hj => ?_⟩
  · rw [hget, decide_eq_true_iff]
    exact hn.ids k x hx
  · have hj' := hn.ids j _ (List.getElem?_eq_getElem (hj.trans hlt))
    rw [decide_eq_false_iff_not, hj']
    omega

/-! ## `make_room` -/

/-- The round ends, with room or without. -/
theorem Inv.leaves (h : Inv s) {t : Task} (hpc : s.sys.pc 0 = .room t) :
    Keeps s (s.after (s.sys.goto 0 t.next)) := by
  have hstands := h.stands
  rw [hpc] at hstands
  cases t with
  | append a =>
    exact h.stays rfl (pc_at rfl) (Bool.eq_false_iff.mpr hstands) nofun nofun
  | restore r =>
    show Keeps s (s.after (s.sys.goto 0 (.alloc r)))
    obtain ⟨hdenied, hflash, hsame⟩ := hstands
    have hd : s.denied = false := Bool.eq_false_iff.mpr hdenied
    have hafter : (s.after (s.sys.goto 0 (.alloc r))).denied =
        decide (BUDGET_BLOCKS < s.sys.cache.residentBlocks + 1) := by
      unfold after Sys.denies
      rw [show (s.sys.goto 0 (.alloc r)).pc 0 = .alloc r from pc_at rfl, hd]
      rfl
    have hiff : (s.after (s.sys.goto 0 (.alloc r))).denied ↔ BUDGET_BLOCKS ≤ s.sys.cache.residentBlocks := by
      rw [hafter, decide_eq_true_iff, Nat.lt_succ_iff]
    refine ⟨⟨h.numbered, h.counted, h.bound, ?_⟩, fun _ hd' => ⟨?_, fun reply hreply => ?_⟩⟩
    · show Stands s.sys.cache s.before _ ((s.sys.goto 0 (.alloc r)).pc 0)
      rw [show (s.sys.goto 0 (.alloc r)).pc 0 = .alloc r from pc_at rfl]
      exact ⟨hflash, hiff⟩
    · exact hsame.resolve_right (Nat.not_lt.mpr (hiff.mp hd'))
    · rw [show (s.after (s.sys.goto 0 (.alloc r))).sys.pc 0 = .alloc r from pc_at rfl] at hreply
      cases hreply

/-- The block of the read is another one than the victim. -/
theorem onFlash_set {c : Cache} {r : Restore} (h : OnFlash c r) {k i : ℕ} {old b : Block}
    {g : Session → Session} (hg : ∀ x, (g x).blocks = x.blocks.set i b)
    (hold : c.blockAt k i = some old) (hne : ∀ sector, old ≠ .spilled sector) :
    OnFlash (c.modify k g) r := by
  obtain ⟨n, hid, hb⟩ := h
  refine ⟨n, hid, ?_⟩
  rw [Cache.blockAt_set hg hold, if_neg, hb]
  rintro ⟨rfl, rfl⟩
  rw [hold] at hb
  exact hne r.sector (Option.some.inj hb)

/-- A victim is marked. -/
theorem Inv.chooses (h : Inv s) {t : Task} {now : ℕ} {job : Job} {cache : Cache}
    (hpc : s.sys.pc 0 = .room t) (hc : s.sys.cache.choose 1 now = some (job, cache)) :
    Keeps s (s.after { s.sys.goto 0 (.spill t job now 0) with cache := cache }) := by
  have hfull : BUDGET_BLOCKS ≤ s.sys.cache.residentBlocks := by
    unfold Cache.choose at hc
    split at hc
    · cases hc
    · omega
  obtain ⟨usedTick, hb, -, rfl⟩ := Cache.choose_some hc
  let g : Session → Session := fun x =>
    { x with blocks := x.blocks.set job.bi (.spilling job.frame job.sector) }
  have hg : ∀ x, (g x).blocks = x.blocks.set job.bi (.spilling job.frame job.sector) := fun _ => rfl
  have hset := Alike.set h.numbered h.counted hb hg (fun _ => rfl) rfl rfl
  have hmarked := (Cache.blockAt_set hg hb job.si job.bi).trans (if_pos ⟨rfl, rfl⟩)
  have hothers : ∀ k i, ¬(k = job.si ∧ i = job.bi) →
      (s.sys.cache.modify job.si g).blockAt k i = s.sys.cache.blockAt k i :=
    fun k i hne => (Cache.blockAt_set hg hb k i).trans (if_neg hne)
  have hstands := h.stands
  rw [hpc] at hstands
  cases t with
  | append a =>
    exact Inv.moved ⟨hset.numbered.ids, hset.numbered.next⟩ hset.counted h.bound (pc_at rfl)
      (Bool.eq_false_iff.mpr hstands) nofun ⟨nofun, hmarked⟩
  | restore r =>
    obtain ⟨hdenied, hflash, hsame⟩ := hstands
    obtain ⟨hsame, hcount⟩ := hsame.resolve_right (Nat.not_lt.mpr hfull)
    refine Inv.moved ⟨hset.numbered.ids, hset.numbered.next⟩ hset.counted h.bound (pc_at rfl)
      (Bool.eq_false_iff.mpr hdenied) nofun ⟨nofun, onFlash_set hflash hg hb nofun,
        ⟨hmarked, ⟨usedTick, by rw [← hsame, hb]⟩, fun k i hne => ?_, hcount⟩, hfull⟩
    exact (hothers k i hne).trans (hsame k i)

theorem Inv.room (h : Inv s) {t : Task} {now : ℕ} (hpc : s.sys.pc 0 = .room t) :
    Keeps s (s.after (s.sys.chooseVictim 0 t now)) := by
  unfold Sys.chooseVictim
  cases hc : s.sys.cache.choose 1 now with
  | none => exact h.leaves hpc
  | some chosen => exact h.chooses hpc hc

theorem Inv.spill (h : Inv s) {t : Task} {job : Job} {now n : ℕ} {io : Io}
    (hpc : s.sys.pc 0 = .spill t job now n) :
    Keeps s (s.after (s.sys.spillSector 0 t job now n io)) := by
  have hstands := h.stands
  rw [hpc] at hstands
  have hdenied : s.denied = false := by
    cases t with
    | append a => exact Bool.eq_false_iff.mpr hstands.1
    | restore r => exact Bool.eq_false_iff.mpr hstands.1
  -- the cache stays as it is, wherever the thread goes
  have hstays : ∀ p, (∀ r, p ≠ .alloc r) → Stands s.sys.cache s.before false p → ∀ disk,
      Keeps s (s.after { s.sys.goto 0 p with disk := disk }) :=
    fun p hp hstand disk => h.stays rfl (pc_at rfl) hdenied hp hstand
  unfold Sys.spillSector
  dsimp only
  split_ifs
  all_goals
    refine hstays _ (fun r hr => Pc.noConfusion hr) ?_ _
    cases t with
    | append a => exact ⟨nofun, hstands.2⟩
    | restore r => exact ⟨nofun, hstands.2⟩

/-- The block is on flash, and there is room. -/
theorem Inv.spilled (h : Inv s) {t : Task} {job : Job} {now : ℕ}
    (hpc : s.sys.pc 0 = .settle t job now true) :
    Keeps s (s.after (s.sys.settleSpill 0 t job now true)) := by
  have hstands := h.stands
  rw [hpc] at hstands
  have hmarked : s.sys.cache.blockAt job.si job.bi = some (.spilling job.frame job.sector) := by
    cases t with
    | append a => exact hstands.2
    | restore r => exact hstands.2.2.1.marked
  have hbound : (s.sys.cache.settle job true now).residentBlocks ≤ BUDGET_BLOCKS :=
    (Nat.sub_le _ _).trans h.bound
  have hcounted := Cache.counted_settle hmarked h.counted now
  have hnumbered := h.numbered.settle job now
  unfold Sys.settleSpill
  dsimp only
  rw [if_pos rfl]
  cases t with
  | append a =>
    exact Inv.moved hnumbered hcounted hbound (pc_at rfl) (Bool.eq_false_iff.mpr hstands.1) nofun nofun
  | restore r =>
    obtain ⟨hdenied, hflash, -, -⟩ := hstands
    have hroom : (s.sys.cache.settle job true now).residentBlocks < BUDGET_BLOCKS := by
      have hpos : BUDGET_BLOCKS ≠ 0 := by decide
      have hb := h.bound
      show s.sys.cache.residentBlocks - 1 < BUDGET_BLOCKS
      omega
    exact Inv.moved hnumbered hcounted hbound (pc_at rfl) (Bool.eq_false_iff.mpr hdenied) nofun
      ⟨nofun, onFlash_set (g := fun x => { x with
        blocks := x.blocks.set job.bi (.spilled job.sector), spills := x.spills + 1 }) hflash
        (fun _ => rfl) hmarked nofun, .inr hroom⟩

/-- The block could not be written out. -/
theorem Inv.unspilled (h : Inv s) {t : Task} {job : Job} {now : ℕ}
    (hpc : s.sys.pc 0 = .settle t job now false) :
    Inv (s.after (s.sys.settleSpill 0 t job now false)) ∧
      ((s.after (s.sys.settleSpill 0 t job now false)).Refused ↔
        s.RoomyAt (.settle t job now false)) := by
  have hstands := h.stands
  rw [hpc] at hstands
  have hmarked : s.sys.cache.blockAt job.si job.bi = some (.spilling job.frame job.sector) := by
    cases t with
    | append a => exact hstands.2
    | restore r => exact hstands.2.2.1.marked
  let g : Session → Session := fun x =>
    { x with blocks := x.blocks.set job.bi (.resident job.frame now) }
  have hg : ∀ x, (g x).blocks = x.blocks.set job.bi (.resident job.frame now) := fun _ => rfl
  have hset := Alike.set h.numbered h.counted hmarked hg (fun _ => rfl) rfl rfl
  have hcache : s.sys.cache.settle job false now = s.sys.cache.modify job.si g := if_neg nofun
  unfold Sys.settleSpill RoomyAt
  dsimp only
  rw [if_neg nofun, hcache]
  cases t with
  | append a =>
    have hkeeps : Keeps s
        (s.after (Sys.goto { s.sys with cache := s.sys.cache.modify job.si g } 0 (.append a))) :=
      Inv.moved hset.numbered hset.counted h.bound (pc_at rfl) (Bool.eq_false_iff.mpr hstands.1)
        nofun nofun
    refine ⟨hkeeps.1, iff_of_true (hkeeps.2 fun hd => ?_) trivial⟩
    exact absurd hd hstands.1
  | restore r =>
    obtain ⟨hdenied, hflash, hmarks, hfull⟩ := hstands
    show Inv (s.after (Sys.goto { s.sys with cache := s.sys.cache.modify job.si g } 0 (.alloc r))) ∧
      ((s.after (Sys.goto { s.sys with cache := s.sys.cache.modify job.si g } 0 (.alloc r))).Refused ↔
        s.before.blockAt job.si job.bi = some (.resident job.frame now))
    have hpc' : (Sys.goto { s.sys with cache := s.sys.cache.modify job.si g } 0 (.alloc r)).pc 0 =
      .alloc r := pc_at rfl
    generalize hsys : Sys.goto { s.sys with cache := s.sys.cache.modify job.si g } 0 (.alloc r) = sys
      at hpc' ⊢
    have hc : sys.cache = s.sys.cache.modify job.si g := hsys ▸ rfl
    have hd : (s.after sys).denied = true := by
      unfold after Sys.denies
      rw [hpc', hc, Bool.or_eq_true]
      exact .inr (decide_eq_true (Nat.lt_succ_of_le hfull))
    have hblocks := Cache.blockAt_set hg hmarked
    refine ⟨⟨hc ▸ hset.numbered, hc ▸ hset.counted, hc ▸ h.bound, ?_⟩, fun hr => ?_,
      fun hok _ => ⟨⟨fun k i => ?_, ?_⟩, fun reply hreply => ?_⟩⟩
    · show Stands sys.cache s.before (s.after sys).denied (sys.pc 0)
      rw [hpc', hd, hc]
      exact ⟨onFlash_set hflash hg hmarked nofun, iff_of_true rfl hfull⟩
    · have hsame := (hr hd).1.1 job.si job.bi
      refine hsame.symm.trans ?_
      show sys.cache.blockAt job.si job.bi = _
      rw [hc, hblocks, if_pos ⟨rfl, rfl⟩]
    · show sys.cache.blockAt k i = _
      rw [hc, hblocks]
      split_ifs with hki
      · rw [hki.1, hki.2]
        exact hok.symm
      · exact hmarks.others k i hki
    · show sys.cache.residentBlocks = _
      rw [hc]
      exact hmarks.count
    · have hreply' : sys.pc 0 = .returned reply := hreply
      rw [hpc'] at hreply'
      cases hreply'

/-! ## `append` -/

theorem Inv.append (h : Inv s) {a : Extend} {now : ℕ} (hpc : s.sys.pc 0 = .append a) :
    Keeps s (s.after (s.sys.appendBlock 0 a now)) := by
  have hstands := h.stands
  rw [hpc] at hstands
  have hdenied : s.denied = false := Bool.eq_false_iff.mpr hstands
  unfold Sys.appendBlock
  generalize (if BUDGET_BLOCKS ≤ s.sys.cache.residentBlocks then (none, s.sys.frames) else
    s.sys.frames.alloc s.sys.mem) = given
  obtain ⟨frame, frames⟩ := given
  dsimp only
  cases frame with
  | none =>
    cases hp : s.sys.cache.push a.id none now with
    | error why => exact h.stays rfl (pc_at rfl) hdenied nofun trivial
    | ok cache => exact absurd hp fun hp => Cache.push_none hp
  | some frame =>
    cases hp : s.sys.cache.push a.id (some frame) now with
    | error why => exact h.stays rfl (pc_at rfl) hdenied nofun trivial
    | ok cache =>
      obtain ⟨hnumbered, hcounted, -⟩ := Cache.push_ok h.numbered h.counted hp
      refine Inv.moved hnumbered hcounted ?_ (pc_at rfl) hdenied nofun nofun
      unfold Cache.push at hp
      split at hp
      · cases hp
      · dsimp only at hp
        split at hp
        · cases hp
        · cases hp
          exact Nat.succ_le_of_lt (Nat.not_le.mp ‹_›)

theorem Inv.fill (h : Inv s) {a : Extend} {frame index : ℕ} (hpc : s.sys.pc 0 = .fill a frame index) :
    Keeps s (s.after (s.sys.fillFrame 0 a frame index)) := by
  have hstands := h.stands
  rw [hpc] at hstands
  have hdenied : s.denied = false := Bool.eq_false_iff.mpr hstands
  cases hleft : a.left with
  | zero =>
    exact h.stays (p := .returned (.append (.ok (a.added + 1)))) rfl
      (by unfold Sys.fillFrame; rw [hleft]; exact pc_at rfl) hdenied nofun trivial
  | succ left =>
    exact h.stays (p := .room (.append ⟨a.id, left, a.added + 1⟩)) rfl
      (by unfold Sys.fillFrame; rw [hleft]; exact pc_at rfl) hdenied nofun nofun

/-! ## `read` -/

theorem Inv.look (h : Inv s) {q : Request} {now : ℕ} (hpc : s.sys.pc 0 = .look q) :
    Keeps s (s.after (s.sys.lookAt 0 q now)) := by
  have hstands := h.stands
  rw [hpc] at hstands
  obtain ⟨hdenied, hsame, hcount⟩ := hstands
  have hd : s.denied = false := Bool.eq_false_iff.mpr hdenied
  obtain ⟨halike, hblocks, hfound⟩ := look_alike h.numbered h.counted q.id q.index now
  have hresident : (s.sys.cache.look q.id q.index now).2.residentBlocks = s.sys.cache.residentBlocks := by
    unfold Cache.look
    split <;> rfl
  have hsame' : Same (s.sys.cache.look q.id q.index now).2 s.before :=
    ⟨fun k i => (hblocks k i).trans (hsame k i), hresident.trans hcount⟩
  have hbound : (s.sys.cache.look q.id q.index now).2.residentBlocks ≤ BUDGET_BLOCKS :=
    hresident ▸ h.bound
  unfold Sys.lookAt
  cases hl : s.sys.cache.look q.id q.index now with
  | mk result cache =>
    rw [hl] at halike hblocks hfound hsame' hbound
    cases result with
    | error why => exact Inv.moved halike.numbered halike.counted hbound (pc_at rfl) hd nofun trivial
    | ok b =>
      have hb := hfound b rfl
      have hstand : ∃ k, q.id = k + 1 ∧ cache.blockAt k q.index = some b :=
        ⟨_, (h.numbered.find_of_blockAt hb).symm, (hblocks _ _).trans hb⟩
      cases b with
      | spilling frame sector =>
        exact Inv.moved halike.numbered halike.counted hbound hpc hd nofun ⟨nofun, hsame'⟩
      | resident frame usedTick =>
        exact Inv.moved halike.numbered halike.counted hbound (pc_at rfl) hd nofun
          ⟨nofun, hsame', hstand⟩
      | spilled sector =>
        exact Inv.moved halike.numbered halike.counted hbound (pc_at rfl) hd nofun
          ⟨nofun, hsame', hstand⟩

theorem Inv.found (h : Inv s) {q : Request} {now : ℕ} {b : Block} (hpc : s.sys.pc 0 = .found q b)
    (hs : s.sys.takeUp 0 q now b = some sys) : Keeps s (s.after sys) := by
  have hstands := h.stands
  rw [hpc] at hstands
  obtain ⟨hdenied, hsame, k, hid, hb⟩ := hstands
  have hd : s.denied = false := Bool.eq_false_iff.mpr hdenied
  cases b with
  | resident frame usedTick =>
    cases hs
    have hfind : s.sys.cache.find q.id = k := hid ▸ find_eq h.numbered hb
    have hset := Alike.set (k := s.sys.cache.find q.id) (b := .resident frame now) (g := fun x =>
        { x with hits := x.hits + 1, blocks := x.blocks.set q.index (.resident frame now) })
      h.numbered h.counted (hfind.symm ▸ hb) (fun _ => rfl) (fun _ => rfl) rfl rfl
    exact Inv.moved hset.numbered hset.counted h.bound (pc_at rfl) hd nofun nofun
  | spilling frame sector => cases hs
  | spilled sector =>
    cases hs
    exact h.stays rfl (pc_at rfl) hd nofun ⟨nofun, ⟨k, hid, hb⟩, .inl hsame⟩

/-- A read that is on its way goes on with the cache as it is. -/
theorem Inv.goes (h : Inv s) (hcache : sys.cache = s.sys.cache) (hpc : sys.pc 0 = p)
    (hp : ∀ r, p ≠ .alloc r) (hstands : Stands s.sys.cache s.before s.denied p)
    (hreply : ∀ reply, p = .returned reply → ∃ q why, reply = .read q (.error why)) :
    Keeps s (s.after sys) := by
  have hdenies : sys.denies = false := by
    unfold Sys.denies
    rw [hpc]
    cases p with
    | alloc r => exact absurd rfl (hp r)
    | _ => rfl
  have hstill : (s.after sys).denied = s.denied := by
    unfold after
    rw [hdenies, Bool.or_false]
  refine ⟨⟨hcache ▸ h.numbered, hcache ▸ h.counted, hcache ▸ h.bound, ?_⟩, fun hr hd => ?_⟩
  · rw [hstill]
    show Stands sys.cache s.before s.denied (sys.pc 0)
    rw [hpc, hcache]
    exact hstands
  · rw [hstill] at hd
    refine ⟨hcache ▸ (hr hd).1, fun reply heq => hreply reply ?_⟩
    rw [← hpc]
    exact heq

theorem Inv.alloc (h : Inv s) {r : Restore} (hpc : s.sys.pc 0 = .alloc r) :
    Keeps s (s.after (s.sys.allocFrame 0 r)) := by
  have hstands := h.stands
  rw [hpc] at hstands
  unfold Sys.allocFrame
  cases s.sys.frames.alloc s.sys.mem with
  | mk frame frames =>
    cases frame with
    | none =>
      refine h.goes rfl (pc_at rfl) nofun trivial fun reply heq => ?_
      cases heq
      exact ⟨_, _, rfl⟩
    | some frame => exact h.goes (p := .load r frame 0) rfl (pc_at rfl) nofun hstands nofun

theorem Inv.load (h : Inv s) {r : Restore} {frame n : ℕ} {io : Io}
    (hpc : s.sys.pc 0 = .load r frame n) : Keeps s (s.after (s.sys.loadSector 0 r frame n io)) := by
  have hstands := h.stands
  rw [hpc] at hstands
  unfold Sys.loadSector
  split_ifs
  · exact h.goes (p := .publish r frame) rfl (pc_at rfl) nofun hstands nofun
  · exact h.goes (p := .load r frame (n + 1)) rfl (pc_at rfl) nofun hstands nofun
  · refine h.goes rfl (pc_at rfl) nofun trivial fun reply heq => ?_
    cases heq
    exact ⟨_, _, rfl⟩

/-- A block is put back where there is room. -/
theorem Inv.publish (h : Inv s) {r : Restore} {frame : ℕ} (hpc : s.sys.pc 0 = .publish r frame)
    (hroom : s.sys.cache.residentBlocks < BUDGET_BLOCKS) :
    Keeps s (s.after (s.sys.publishBlock 0 r frame)) := by
  have hstands := h.stands
  rw [hpc] at hstands
  obtain ⟨⟨k, hid, hb⟩, hdenied⟩ := hstands
  have hd : s.denied = false := Bool.eq_false_iff.mpr fun hd => absurd (hdenied.mp hd) (Nat.not_le.mpr hroom)
  have hold : s.sys.cache.blockAt (s.sys.cache.find r.id) r.index = some (.spilled r.sector) := by
    rw [hid, find_eq h.numbered hb, hb]
  exact Inv.moved (h.numbered.publish r.id r.index frame r.now)
    (Cache.counted_publish hold h.counted frame r.now) hroom (pc_at rfl) hd nofun nofun

theorem Inv.copy (h : Inv s) {q : Request} {frame : ℕ} {hit : Bool}
    (hpc : s.sys.pc 0 = .copy q frame hit) : Keeps s (s.after (s.sys.copyOut 0 q frame hit)) := by
  have hstands := h.stands
  rw [hpc] at hstands
  exact h.stays rfl (pc_at rfl) (Bool.eq_false_iff.mpr hstands) nofun trivial

/-! ## Every step -/

/-- The step meets the condition exactly when the claim holds after it. -/
def Decides (s : Solo) (ok : Prop) (s' : Solo) : Prop :=
  (ok → Inv s') ∧ (s.Refused → (s'.Within ↔ ok))

theorem Keeps.decides (h : Keeps s s') {ok : Prop} (hok : ok) : s.Decides ok s' :=
  ⟨fun _ => h.1, fun hr => iff_of_true (h.1.within.mpr (h.2 hr)) hok⟩

theorem Inv.decides_publish (h : Inv s) {r : Restore} {frame : ℕ} (hpc : s.sys.pc 0 = .publish r frame) :
    s.Decides (s.RoomyAt (.publish r frame)) (s.after (s.sys.publishBlock 0 r frame)) := by
  by_cases hroom : s.sys.cache.residentBlocks < BUDGET_BLOCKS
  · exact (h.publish hpc hroom).decides hroom
  · -- one block more than the budget is counted
    exact ⟨fun hok => absurd hok hroom,
      fun _ => iff_of_false (fun hw => hroom (Nat.lt_of_succ_le hw.counted)) hroom⟩

/-- The next step of the thread in its call. -/
theorem Inv.advance (h : Inv s) {now : ℕ} {io : Io}
    (hs : s.sys.advance 0 now io (s.sys.pc 0) = some sys) :
    s.Decides (s.RoomyAt (s.sys.pc 0)) (s.after sys) := by
  cases hpc : s.sys.pc 0 with
  | idle =>
    rw [hpc] at hs
    cases hs
  | returned reply =>
    rw [hpc] at hs
    cases hs
  | room t =>
    rw [hpc] at hs
    cases hs
    exact (h.room hpc).decides trivial
  | spill t job now' n =>
    rw [hpc] at hs
    cases hs
    exact (h.spill hpc).decides trivial
  | settle t job now' ok =>
    rw [hpc] at hs
    cases hs
    cases ok with
    | false =>
      obtain ⟨hinv, hiff⟩ := h.unspilled hpc
      exact ⟨fun _ => hinv, fun _ => hinv.within.trans hiff⟩
    | true => exact (h.spilled hpc).decides (by cases t <;> trivial)
  | append a =>
    rw [hpc] at hs
    cases hs
    exact (h.append hpc).decides trivial
  | fill a frame index =>
    rw [hpc] at hs
    cases hs
    exact (h.fill hpc).decides trivial
  | look q =>
    rw [hpc] at hs
    cases hs
    exact (h.look hpc).decides trivial
  | found q b =>
    rw [hpc] at hs
    exact (h.found hpc hs).decides trivial
  | alloc r =>
    rw [hpc] at hs
    cases hs
    exact (h.alloc hpc).decides trivial
  | load r frame n =>
    rw [hpc] at hs
    cases hs
    exact (h.load hpc).decides trivial
  | publish r frame =>
    rw [hpc] at hs
    cases hs
    exact h.decides_publish hpc
  | copy q frame hit =>
    rw [hpc] at hs
    cases hs
    exact (h.copy hpc).decides trivial

/-- The thread begins a call. -/
theorem Inv.call (hnumbered : sys.cache.Numbered)
    (hcounted : sys.cache.residentBlocks = sys.cache.heldBlocks)
    (hbound : sys.cache.residentBlocks ≤ BUDGET_BLOCKS)
    (hstands : Stands sys.cache s.sys.cache false (sys.pc 0)) : Keeps s (s.start sys) :=
  ⟨⟨hnumbered, hcounted, hbound, hstands⟩, fun _ hd => Bool.noConfusion hd⟩

/-- The rest of the kernel takes a step. -/
theorem Inv.rest (h : Inv s) (hcache : sys.cache = s.sys.cache) (hpc : sys.pc = s.sys.pc) :
    Keeps s { s with sys := sys } := by
  refine ⟨⟨hcache ▸ h.numbered, hcache ▸ h.counted, hcache ▸ h.bound, ?_⟩, fun hr hd => ?_⟩
  · show Stands sys.cache s.before s.denied (sys.pc 0)
    rw [hcache, hpc]
    exact h.stands
  · show Same sys.cache s.before ∧ ∀ reply, sys.pc 0 = .returned reply → _
    rw [hcache, hpc]
    exact hr hd

theorem Inv.step (h : Inv s) {a : Act} (hs : s.step a = some s') : s.Decides (s.Roomy a) s' := by
  cases a with
  | openSession owner model now =>
    unfold Solo.step at hs
    dsimp only at hs
    split_ifs at hs with hfree
    cases hs
    refine Keeps.decides ?_ trivial
    refine Inv.call (h.numbered.openSession owner model now) ?_ h.bound ?_
    · exact h.counted.trans (Cache.heldBlocks_openSession ..).symm
    · show Stands _ _ false (s.sys.pc 0)
      cases hpc : s.sys.pc 0 <;> rw [hpc] at hfree <;> trivial
  | append k id count =>
    unfold Solo.step Sys.step at hs
    dsimp only at hs
    split_ifs at hs with hk hfree
    · cases hs
      refine Keeps.decides ?_ trivial
      refine Inv.call h.numbered h.counted h.bound ?_
      rw [hk, pc_at rfl]
      cases count with
      | zero => trivial
      | succ n => exact Bool.false_ne_true
    · cases hs
  | read k q =>
    unfold Solo.step Sys.step at hs
    dsimp only at hs
    split_ifs at hs with hk hfree
    · cases hs
      refine Keeps.decides ?_ trivial
      refine Inv.call h.numbered h.counted h.bound ?_
      rw [hk, pc_at rfl]
      exact ⟨Bool.false_ne_true, fun _ _ => rfl, rfl⟩
    · cases hs
  | run k now io =>
    unfold Solo.step at hs
    dsimp only at hs
    split_ifs at hs with hk
    subst hk
    obtain ⟨sys, hsys, rfl⟩ := Option.map_eq_some_iff.mp hs
    have hiff : s.Roomy (.run 0 now io) ↔ s.RoomyAt (s.sys.pc 0) := forall_prop_of_true rfl
    unfold Decides
    rw [hiff]
    exact h.advance hsys
  | take =>
    obtain ⟨sys, hsys, rfl⟩ := Option.map_eq_some_iff.mp hs
    unfold Sys.step at hsys
    dsimp only at hsys
    cases halloc : s.sys.frames.alloc s.sys.mem with
    | mk frame frames =>
      rw [halloc] at hsys
      cases frame <;>
      · cases hsys
        refine Keeps.decides ?_ trivial
        exact h.rest rfl rfl
  | write frame page =>
    obtain ⟨sys, hsys, rfl⟩ := Option.map_eq_some_iff.mp hs
    unfold Sys.step at hsys
    dsimp only at hsys
    split_ifs at hsys
    cases hsys
    refine Keeps.decides ?_ trivial
    exact h.rest rfl rfl
  | release frame =>
    obtain ⟨sys, hsys, rfl⟩ := Option.map_eq_some_iff.mp hs
    unfold Sys.step at hsys
    dsimp only at hsys
    split_ifs at hsys
    cases hsys
    refine Keeps.decides ?_ trivial
    exact h.rest rfl rfl

end

/-- The machine at boot, with one thread that has not called yet. -/
theorem Init.inv {s : Solo} (h : s.Init) : Inv s := by
  obtain ⟨⟨spillStart, spillSectors, hcache⟩, -, -, hpc⟩ := h.sys
  refine ⟨hcache ▸ ⟨nofun, rfl⟩, hcache ▸ rfl, hcache ▸ Nat.zero_le _, ?_⟩
  rw [hpc]
  trivial

/-- In a run of one thread the budget holds, and a read that has not been given room returns `Err` and
leaves every block as it was, exactly when each read that puts its block back has room for it, and a
block that could not be written out for a read keeps its tick. -/
theorem within_budget_iff {s : Solo} (hs : s.Init) (acts : List Act) :
    Run.Throughout step Within s acts ↔ Run.Meets step Roomy s acts := by
  refine Run.throughout_iff_meets Inv (fun s a s' h hok hstep => (h.step hstep).1 hok)
    (fun s a s' h hw hstep => (h.step hstep).2 hw.refused) (fun s a h hnone => ?_) hs.inv
    (hs.inv.within.mpr fun hd => ?_) acts
  · -- a thread in its call goes on, so it is not in the way
    cases a with
    | run k now io =>
      rintro rfl
      rw [Solo.step, if_pos rfl, Option.map_eq_none_iff] at hnone
      have hadvance : s.sys.advance 0 now io (s.sys.pc 0) = none := hnone
      cases hpc : s.sys.pc 0 with
      | settle t job now' ok => rw [hpc] at hadvance; cases hadvance
      | publish r frame => rw [hpc] at hadvance; cases hadvance
      | _ => trivial
    | _ => trivial
  · rw [hs.denied] at hd
    cases hd

/-! ## A spill region of one block -/

def tight : Sys := { booted with cache := .init 8 8, frames := ⟨4096, 0x100000, [], 0, 0⟩ }

theorem init_tight : tight.Init :=
  ⟨⟨8, 8, rfl⟩, ⟨by decide, ⟨1, rfl⟩, rfl, List.nodup_nil, nofun⟩, nofun, fun _ => rfl⟩

/-- 65 blocks are appended, so that one goes to flash; then it is read. -/
def readBack : List Act :=
  [.take, .openSession 7 1 0, .append 0 1 64] ++ List.replicate 192 (.run 0 0 .ok) ++
    [.append 0 1 1] ++ List.replicate 13 (.run 0 0 .ok) ++
    [.release 4096, .read 0 ⟨1, 4, 1⟩] ++ List.replicate 13 (.run 0 0 .ok)

theorem within_budget_iff_readBack : Run.Throughout step Within ⟨tight, tight.cache, false⟩ readBack ↔
    Run.Meets step Roomy ⟨tight, tight.cache, false⟩ readBack :=
  within_budget_iff ⟨init_tight, rfl⟩ readBack

/-- No sectors are left for another block, and the read puts its block into memory all the same. -/
theorem over_budget : ∃ s, Run.exec step ⟨tight, tight.cache, false⟩ readBack = some s ∧ ¬s.Within := by
  have hrun : (Run.exec step ⟨tight, tight.cache, false⟩ readBack).map (·.sys.cache.residentBlocks) =
      some 65 := by
    set_option maxRecDepth 20000 in decide
  obtain ⟨s, hs, hcount⟩ := Option.map_eq_some_iff.mp hrun
  refine ⟨s, hs, fun hw => ?_⟩
  have hbound := hw.counted
  rw [hcount] at hbound
  exact absurd hbound (by decide)

end Solo

end JungeyOs.Kv
