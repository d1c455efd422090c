import JungeyOs.Kv.Undisturbed
import Mathlib.Data.List.Induction

/-!
# Which block is evicted

`make_room` evicts the block with the highest score, which grows with the age of the block; that of a
conversation's prefix grows at an eighth of the pace, and that of any other block starts at 1000. A
prefix that nobody has read for long enough can so come before a block that was just used.

Results:
* `Cache.victim_first`: `make_room` evicts the first of the blocks with the highest score.
* `Cache.victim_prefix_iff`: when a prefix is evicted only after all other blocks.
* `prefixes_last_iff`: in a run every prefix stays as long as another block is resident exactly when, at
  each eviction, every prefix is outscored.
* `prefix_first`: a run in which a prefix goes first.
-/

namespace JungeyOs.Kv

namespace Cache

/-! ## The claim -/

/-- A block that is no prefix is resident. -/
def Middle (c : Cache) : Prop :=
  ∃ k i frame usedTick, PREFIX_BLOCKS ≤ i ∧ c.blockAt k i = some (.resident frame usedTick)

/-- As long as a block that is no prefix is resident, there is one for each prefix whose age and the 1000
that it has in advance exceed an eighth of the prefix's age, or come to the same in an earlier session. -/
def Outscored (c : Cache) (now : ℕ) : Prop :=
  c.Middle → ∀ k i frame usedTick, i < PREFIX_BLOCKS →
    c.blockAt k i = some (.resident frame usedTick) →
      ∃ k' i' frame' usedTick', PREFIX_BLOCKS ≤ i' ∧
        c.blockAt k' i' = some (.resident frame' usedTick') ∧
        ((now - usedTick) / 8 < now - usedTick' + 1000 ∨
          (now - usedTick) / 8 = now - usedTick' + 1000 ∧ k' < k)

/-! ## The victim -/

/-- Block `v` comes before block `w`. -/
def Precedes (v w : ℕ × ℕ × ℕ × ℕ) : Prop := v.1 < w.1 ∨ v.1 = w.1 ∧ v.2.1 < w.2.1

section

variable {c : Cache} {now : ℕ} {v w : ℕ × ℕ × ℕ × ℕ}

theorem pairwise_zipIdx {α : Type*} (l : List α) : l.zipIdx.Pairwise fun x y => x.2 < y.2 := by
  rw [← List.pairwise_map (f := Prod.snd) (R := (· < ·)), List.zipIdx_map_snd]
  exact List.pairwise_lt_range'

/-- The candidates come in the order of the sessions and of their blocks. -/
theorem pairwise_candidates (c : Cache) (now : ℕ) : (c.candidates now).Pairwise Precedes := by
  refine List.pairwise_flatMap.mpr ⟨fun x _ => ?_, ?_⟩
  · refine List.pairwise_filterMap.mpr ((pairwise_zipIdx _).imp ?_)
    rintro ⟨b, bi⟩ ⟨b', bi'⟩ hlt v hv w hw
    cases b with
    | resident frame usedTick =>
      cases b' with
      | resident frame' usedTick' =>
        cases hv
        cases hw
        exact .inr ⟨rfl, hlt⟩
      | spilling frame' sector => cases hw
      | spilled sector => cases hw
    | spilling frame sector => cases hv
    | spilled sector => cases hv
  · refine (pairwise_zipIdx _).imp fun {x y} hlt v hv w hw => .inl ?_
    obtain ⟨⟨b, bi⟩, -, hv⟩ := List.mem_filterMap.mp hv
    obtain ⟨⟨b', bi'⟩, -, hw⟩ := List.mem_filterMap.mp hw
    cases b with
    | resident frame usedTick =>
      cases b' with
      | resident frame' usedTick' =>
        cases hv
        cases hw
        exact hlt
      | spilling frame' sector => cases hw
      | spilled sector => cases hw
    | spilling frame sector => cases hv
    | spilled sector => cases hv

/-- The candidates are the resident blocks, with their scores. -/
theorem mem_candidates : v ∈ c.candidates now ↔ ∃ usedTick,
    c.blockAt v.1 v.2.1 = some (.resident v.2.2.2 usedTick) ∧
      v.2.2.1 = evictionScore v.2.1 usedTick now := by
  constructor
  · intro h
    obtain ⟨⟨x, si⟩, hx, hv⟩ := List.mem_flatMap.mp h
    obtain ⟨⟨b, bi⟩, hb, hsome⟩ := List.mem_filterMap.mp hv
    have hx' : c.sessions[si]? = some x := (List.mem_zipIdx_iff_getElem?).mp hx
    have hb' : x.blocks[bi]? = some b := (List.mem_zipIdx_iff_getElem?).mp hb
    cases b with
    | resident frame usedTick =>
      cases hsome
      exact ⟨usedTick, by rw [blockAt, hx', Option.bind_some, hb'], rfl⟩
    | spilling frame sector => cases hsome
    | spilled sector => cases hsome
  · rintro ⟨usedTick, hblock, hscore⟩
    obtain ⟨x, hx, hb⟩ := Option.bind_eq_some_iff.mp hblock
    obtain ⟨si, bi, score, frame⟩ := v
    refine List.mem_flatMap.mpr ⟨(x, si), (List.mem_zipIdx_iff_getElem?).mpr hx, ?_⟩
    refine List.mem_filterMap.mpr ⟨(_, bi), (List.mem_zipIdx_iff_getElem?).mpr hb, ?_⟩
    dsimp only at hscore ⊢
    rw [hscore]

/-- The first of those with the highest score. -/
theorem worst_first {l : List (ℕ × ℕ × ℕ × ℕ)} :
    (l.foldl worst none = none → l = []) ∧ ∀ v, l.foldl worst none = some v →
      ∃ pre post, l = pre ++ v :: post ∧ (∀ w ∈ pre, w.2.2.1 < v.2.2.1) ∧
        ∀ w ∈ post, w.2.2.1 ≤ v.2.2.1 := by
  induction l using List.reverseRecOn with
  | nil => exact ⟨fun _ => rfl, nofun⟩
  | append_singleton l x ih =>
    obtain ⟨hnone, hsome⟩ := ih
    rw [List.foldl_append, List.foldl_cons, List.foldl_nil]
    cases hl : l.foldl worst none with
    | none =>
      obtain rfl := hnone hl
      refine ⟨nofun, fun v hv => ?_⟩
      cases hv
      exact ⟨[], [], rfl, nofun, nofun⟩
    | some v =>
      obtain ⟨pre, post, rfl, hpre, hpost⟩ := hsome v hl
      unfold worst
      dsimp only
      refine ⟨fun h => by split_ifs at h, fun u hu => ?_⟩
      split_ifs at hu with hlt
      · cases hu
        refine ⟨pre ++ v :: post, [], rfl, fun w hw => ?_, nofun⟩
        rcases List.mem_append.mp hw with hw | hw
        · exact (hpre w hw).trans hlt
        · rcases List.mem_cons.mp hw with rfl | hw
          · exact hlt
          · exact (hpost w hw).trans_lt hlt
      · cases hu
        refine ⟨pre, post ++ [x], by rw [List.append_assoc, List.cons_append], hpre, fun w hw => ?_⟩
        rcases List.mem_append.mp hw with hw | hw
        · exact hpost w hw
        · rw [List.mem_singleton.mp hw]
          exact Nat.not_lt.mp hlt

/-- `make_room` evicts the first of the blocks with the highest score. -/
theorem victim_first (h : c.victim now = some v) : v ∈ c.candidates now ∧
    ∀ w ∈ c.candidates now, w.2.2.1 < v.2.2.1 ∨
      w.2.2.1 = v.2.2.1 ∧ (w = v ∨ Precedes v w) := by
  obtain ⟨pre, post, heq, hpre, hpost⟩ := worst_first.2 v h
  have hpairs := pairwise_candidates c now
  rw [heq] at hpairs ⊢
  obtain ⟨-, hback, -⟩ := List.pairwise_append.mp hpairs
  have hafter := (List.pairwise_cons.mp hback).1
  refine ⟨List.mem_append_right _ List.mem_cons_self, fun w hw => ?_⟩
  rcases List.mem_append.mp hw with hw | hw
  · exact .inl (hpre w hw)
  · rcases List.mem_cons.mp hw with rfl | hw
    · exact .inr ⟨rfl, .inl rfl⟩
    · rcases (hpost w hw).lt_or_eq with hlt | heq
      · exact .inl hlt
      · exact .inr ⟨heq, .inr (hafter w hw)⟩

theorem evictionScore_first {i usedTick : ℕ} (hi : i < PREFIX_BLOCKS) :
    evictionScore i usedTick now = (now - usedTick) / 8 := if_pos hi

theorem evictionScore_middle {i usedTick : ℕ} (hi : PREFIX_BLOCKS ≤ i) :
    evictionScore i usedTick now = now - usedTick + 1000 := if_neg (Nat.not_lt.mpr hi)

/-- A prefix is evicted only after all other blocks exactly when each of them is outscored. -/
theorem victim_prefix_iff (h : c.victim now = some v) :
    (v.2.1 < PREFIX_BLOCKS → ¬c.Middle) ↔ c.Outscored now := by
  obtain ⟨hmem, hfirst⟩ := victim_first h
  obtain ⟨usedTick, hblock, hscore⟩ := mem_candidates.mp hmem
  constructor
  · intro hlast hmiddle k i frame used hi hprefix
    have hv : PREFIX_BLOCKS ≤ v.2.1 := Nat.not_lt.mp fun hlt => hlast hlt hmiddle
    refine ⟨v.1, v.2.1, v.2.2.2, usedTick, hv, hblock, ?_⟩
    rw [evictionScore_middle hv] at hscore
    have hp : (k, i, (now - used) / 8, frame) ∈ c.candidates now :=
      mem_candidates.mpr ⟨used, hprefix, (evictionScore_first hi).symm⟩
    rw [← hscore]
    rcases hfirst _ hp with hlt | ⟨heq, hsame | hbefore⟩
    · exact .inl hlt
    · rw [← hsame] at hv
      exact absurd hi (Nat.not_lt.mpr hv)
    · rcases hbefore with hlt | ⟨-, hlt⟩
      · exact .inr ⟨heq, hlt⟩
      · dsimp only at hlt
        omega
  · intro houtscored hv hmiddle
    rw [evictionScore_first hv] at hscore
    obtain ⟨k, i, frame, used, hi, hm, hbeats⟩ :=
      houtscored hmiddle v.1 v.2.1 v.2.2.2 usedTick hv hblock
    have hp : (k, i, now - used + 1000, frame) ∈ c.candidates now :=
      mem_candidates.mpr ⟨used, hm, (evictionScore_middle hi).symm⟩
    rw [← hscore] at hbeats
    rcases hfirst _ hp with hlt | ⟨heq, hsame | hbefore⟩
    · dsimp only at hlt
      omega
    · rw [← hsame] at hv
      exact absurd hi (Nat.not_le.mpr hv)
    · unfold Precedes at hbefore
      dsimp only at hbefore heq
      omega

/-- What `make_room` evicts is the victim. -/
theorem choose_victim {job : Job} {c' : Cache} (h : c.choose 1 now = some (job, c')) :
    ∃ score, c.victim now = some (job.si, job.bi, score, job.frame) := by
  unfold choose at h
  split at h
  · cases h
  · cases hv : c.victim now with
    | none => rw [hv] at h; cases h
    | some v =>
      rw [hv] at h
      dsimp only at h
      split at h
      · cases h
      · cases h
        exact ⟨_, rfl⟩

end

end Cache

/-! ## Runs -/

/-- The system with what `make_room` has chosen to evict, newest first, and the cache at that time. -/
structure Watched where
  sys : Sys
  evicted : List (Job × Cache)

namespace Watched

/-- What a step chooses to evict. -/
def evicts (s : Sys) : Act → List (Job × Cache)
  | .run k now _ =>
    match s.pc k with
    | .room _ => ((s.cache.choose 1 now).map fun x => (x.1, s.cache)).toList
    | _ => []
  | _ => []

def step (s : Watched) (a : Act) : Option Watched :=
  (s.sys.step a).map fun sys => ⟨sys, evicts s.sys a ++ s.evicted⟩

/-- At boot. -/
structure Init (s : Watched) : Prop where
  sys : s.sys.Init
  evicted : s.evicted = []

/-- Whenever a prefix was evicted, no other block was resident. -/
def PrefixesLast (s : Watched) : Prop :=
  ∀ e ∈ s.evicted, e.1.bi < PREFIX_BLOCKS → ¬e.2.Middle

/-- A step that evicts a block does it while every prefix is outscored. -/
def Ordered (s : Watched) : Act → Prop
  | .run k now _ =>
    match s.sys.pc k with
    | .room _ => (s.sys.cache.choose 1 now).isSome → s.sys.cache.Outscored now
    | _ => True
  | _ => True

variable {s s' : Watched} {a : Act}

/-- A step evicts nothing, or the victim of the cache as it is. -/
theorem evicts_cases (s : Watched) (a : Act) : (evicts s.sys a = [] ∧ s.Ordered a) ∨
    ∃ job now score, evicts s.sys a = [(job, s.sys.cache)] ∧
      s.sys.cache.victim now = some (job.si, job.bi, score, job.frame) ∧
      (s.Ordered a ↔ s.sys.cache.Outscored now) := by
  cases a with
  | run k now io =>
    unfold evicts Ordered
    dsimp only
    cases s.sys.pc k with
    | room t =>
      dsimp only
      cases hc : s.sys.cache.choose 1 now with
      | none => exact .inl ⟨rfl, nofun⟩
      | some x =>
        obtain ⟨job, cache⟩ := x
        obtain ⟨score, hv⟩ := Cache.choose_victim hc
        exact .inr ⟨job, now, score, rfl, hv, fun h => h rfl, fun h _ => h⟩
    | _ => exact .inl ⟨rfl, trivial⟩
  | _ => exact .inl ⟨rfl, trivial⟩

theorem prefixesLast_step (h : s.PrefixesLast) (hs : s.step a = some s') :
    s'.PrefixesLast ↔ s.Ordered a := by
  obtain ⟨sys, -, rfl⟩ := Option.map_eq_some_iff.mp hs
  unfold PrefixesLast at h ⊢
  rcases evicts_cases s a with ⟨hnone, hok⟩ | ⟨job, now, score, hone, hv, hok⟩
  · rw [hnone]
    exact iff_of_true h hok
  · rw [hone, hok, ← Cache.victim_prefix_iff hv]
    dsimp only
    rw [List.singleton_append, List.forall_mem_cons]
    exact and_iff_left h

/-- In a run a prefix is evicted only when no other block is resident exactly when, at each eviction
while one is, there is such a block for every prefix that outscores it. -/
theorem prefixes_last_iff {s : Watched} (hs : s.Init) (acts : List Act) :
    Run.Throughout step PrefixesLast s acts ↔ Run.Meets step Ordered s acts := by
  refine Run.throughout_iff_meets (fun _ => True) (fun _ _ _ _ _ _ => trivial)
    (fun s a s' _ h hstep => prefixesLast_step h hstep) (fun s a _ hnone => ?_) trivial ?_ acts
  · rcases evicts_cases s a with ⟨-, hok⟩ | ⟨job, now, score, hone, -, -⟩
    · exact hok
    · -- a round of `make_room` returns
      have hsome : (s.sys.step a).isSome := by
        cases a with
        | run k now io =>
          unfold evicts at hone
          dsimp only at hone
          cases hpc : s.sys.pc k with
          | room t =>
            show (s.sys.advance k now io (s.sys.pc k)).isSome
            rw [hpc]
            rfl
          | _ => rw [hpc] at hone; cases hone
        | _ => cases hone
      rw [step, Option.map_eq_none_iff] at hnone
      rw [hnone] at hsome
      cases hsome
  · intro e he
    rw [hs.evicted] at he
    cases he

/-- A machine at boot that has frames for the whole budget. -/
def roomy : Sys := { booted with frames := ⟨4096, 0x100000, [], 0, 0⟩ }

theorem init_roomy : roomy.Init :=
  ⟨⟨8, 64, rfl⟩, ⟨by decide, ⟨1, rfl⟩, rfl, List.nodup_nil, nofun⟩, nofun, fun _ => rfl⟩

/-- A session of 4 blocks at time 0, and one of 60 at 80 seconds; then another block is to come. -/
def demoIdle : List Act :=
  [.openSession 7 1 0, .openSession 7 1 0, .append 0 1 4] ++ List.replicate 12 (.run 0 0 .ok) ++
    [.append 0 2 60] ++ List.replicate 180 (.run 0 8008 .ok) ++ [.append 0 2 1, .run 0 8008 .ok]

theorem prefixes_last_iff_demoIdle :
    Run.Throughout step PrefixesLast ⟨roomy, []⟩ demoIdle ↔ Run.Meets step Ordered ⟨roomy, []⟩ demoIdle :=
  prefixes_last_iff ⟨init_roomy, rfl⟩ demoIdle

/-- The first block of the idle session goes, although 56 blocks of the other are no prefix. -/
theorem prefix_first : ∃ s, Run.exec step ⟨roomy, []⟩ demoIdle = some s ∧ ¬s.PrefixesLast := by
  have hrun : (Run.exec step ⟨roomy, []⟩ demoIdle).map (fun s =>
      s.evicted.map fun e => (e.1.si, e.1.bi, e.2.blockAt 1 4)) =
      some [(0, 0, some (.resident 36864 8008))] := by
    set_option maxRecDepth 20000 in decide
  obtain ⟨s, hs, hevicted⟩ := Option.map_eq_some_iff.mp hrun
  refine ⟨s, hs, fun h => ?_⟩
  obtain ⟨e, l, hcons, hfirst, -⟩ := List.map_eq_cons_iff.mp hevicted
  obtain ⟨-, hrest⟩ := Prod.mk.inj hfirst
  obtain ⟨hbi, hblock⟩ := Prod.mk.inj hrest
  have hmem : e ∈ s.evicted := hcons ▸ List.mem_cons_self
  exact h e hmem (by rw [hbi]; decide) ⟨1, 4, _, _, le_rfl, hblock⟩

end Watched

end JungeyOs.Kv
