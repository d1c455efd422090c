import JungeyOs.Cap

/-!
# Capability tables

Models of `kernel/src/proc.rs`, lines 17 and 108–161: the capability slots of every
process, and the sweep of `revoke` over them.

Results:
* `lookupCap_installCap`: what `install_cap` changes.
* `lookupCap_sweep`: `revoke` marks every descendant of the id, and nothing else.
* `mem_affected_iff`: `revoke` will wake exactly the channels of what it marked.
-/

namespace JungeyOs.Proc

/-- `CAP_SLOTS` (line 17). -/
def CAP_SLOTS : ℕ := 8

/-- `Process::caps` (line 47). -/
abbrev CapTable := Vector (Option Cap) CAP_SLOTS

/-- The capability slots of every process, by pid. -/
abbrev Table := List CapTable

/-- What `create` gives a new process (line 85): no capabilities. -/
def create (table : Table) : Table := table ++ [Vector.replicate CAP_SLOTS none]

/-- `install_cap` (lines 108–115). -/
def installCap (table : Table) (pid slot : ℕ) (cap : Cap) : Except String Table :=
  if CAP_SLOTS ≤ slot then .error "capability slot out of range"
  else match table[pid]? with
    | none => .error "no such process"
    | some caps => .ok (table.set pid (caps.setIfInBounds slot (some cap)))

/-- `lookup_cap` (lines 118–124). -/
def lookupCap (table : Table) (pid slot : ℕ) : Option Cap :=
  if CAP_SLOTS ≤ slot then none
  else match table[pid]? with
    | none => none
    | some caps => (caps[slot]?).join

/-! ## The sweep of `revoke` (lines 131–161) -/

/-- The test on a capability that the sweep comes to (line 141). -/
def condemned (l : Ledger) (capId : ℕ) (c : Cap) : Bool := !c.revoked && l.isDescendant c.id capId

/-- A slot after the sweep (line 142). -/
def markSlot (l : Ledger) (capId : ℕ) (slot : Option Cap) : Option Cap :=
  slot.map fun c => if condemned l capId c then { c with revoked := true } else c

/-- What the sweep counts at a slot (lines 143–148). -/
def countSlot (l : Ledger) (capId : ℕ) (acc : ℕ × List ℕ) (slot : Option Cap) : ℕ × List ℕ :=
  match slot with
  | none => acc
  | some c =>
    if condemned l capId c then
      match c.channel with
      | some ch => (acc.1 + 1, if acc.2.contains ch then acc.2 else acc.2 ++ [ch])
      | none => (acc.1 + 1, acc.2)
    else acc

/-- Every slot, in the order of the sweep. -/
def slots (table : Table) : List (Option Cap) := table.flatMap Vector.toList

/-- The sweep of `revoke` (lines 135–153): the tables after it, how many
capabilities it killed, and the channels that it affected. -/
def sweep (l : Ledger) (table : Table) (capId : ℕ) : Table × ℕ × List ℕ :=
  (table.map fun caps => caps.map (markSlot l capId), (slots table).foldl (countSlot l capId) (0, []))

section

variable {l : Ledger} {table table' : Table} {pid slot pid' slot' capId : ℕ} {cap c : Cap}

/-- A capability is in a table when one of its slots holds it. -/
theorem lookupCap_eq_some : lookupCap table pid slot = some c ↔
    ∃ caps, table[pid]? = some caps ∧ caps[slot]? = some (some c) := by
  unfold lookupCap
  split_ifs with h
  · refine iff_of_false (by simp) ?_
    rintro ⟨caps, -, hc⟩
    rw [Vector.getElem?_eq_none h] at hc
    cases hc
  · cases table[pid]? with
    | none => simp
    | some caps => simp [Option.join_eq_some_iff]

/-- What `install_cap` changes. -/
theorem lookupCap_installCap (h : installCap table pid slot cap = .ok table') (pid' slot' : ℕ) :
    lookupCap table' pid' slot' =
      if pid' = pid ∧ slot' = slot then some cap else lookupCap table pid' slot' := by
  unfold installCap at h
  split_ifs at h with hslot
  cases hp : table[pid]? with
  | none => rw [hp] at h; cases h
  | some caps =>
    rw [hp] at h
    cases h
    obtain ⟨hlt, -⟩ := List.getElem?_eq_some_iff.mp hp
    unfold lookupCap
    by_cases hpid : pid' = pid
    · subst hpid
      rw [List.getElem?_set_self hlt, hp]
      dsimp only
      by_cases hs : slot' = slot
      · subst hs
        rw [if_neg hslot, if_pos ⟨rfl, rfl⟩, Vector.getElem?_setIfInBounds_self_of_lt (by omega)]
        rfl
      · rw [if_neg (c := pid' = pid' ∧ slot' = slot) fun hh => hs hh.2,
          Vector.getElem?_setIfInBounds_ne (Ne.symm hs)]
    · rw [if_neg (c := pid' = pid ∧ slot' = slot) fun hh => hpid hh.1,
        List.getElem?_set_ne (Ne.symm hpid)]

/-- A call that names a slot of a process is not refused. -/
theorem installCap_ok (hpid : pid < table.length) (hslot : slot < CAP_SLOTS) (cap : Cap) :
    ∃ table', installCap table pid slot cap = .ok table' := by
  unfold installCap
  rw [if_neg (by omega), List.getElem?_eq_getElem hpid]
  exact ⟨_, rfl⟩

theorem installCap_lt (h : installCap table pid slot cap = .ok table') :
    pid < table.length ∧ slot < CAP_SLOTS := by
  unfold installCap at h
  split_ifs at h with hslot
  cases hp : table[pid]? with
  | none => rw [hp] at h; cases h
  | some caps => exact ⟨(List.getElem?_eq_some_iff.mp hp).1, by omega⟩

/-- A new process holds no capability. -/
theorem lookupCap_create : lookupCap (create table) pid slot = lookupCap table pid slot := by
  unfold lookupCap create
  by_cases h : CAP_SLOTS ≤ slot
  · rw [if_pos h, if_pos h]
  · rw [if_neg h, if_neg h]
    rcases Nat.lt_trichotomy pid table.length with hlt | rfl | hgt
    · rw [List.getElem?_append_left hlt]
    · rw [List.getElem?_concat_length, List.getElem?_eq_none (Nat.le_refl _)]
      simp [Nat.not_le.mp h]
    · rw [List.getElem?_eq_none (by simp; omega), List.getElem?_eq_none (by omega)]

/-- `revoke` marks every descendant of the id, and nothing else. -/
theorem lookupCap_sweep : lookupCap (sweep l table capId).1 pid slot =
    markSlot l capId (lookupCap table pid slot) := by
  unfold lookupCap sweep
  split_ifs with h
  · rfl
  · rw [List.getElem?_map]
    cases table[pid]? with
    | none => rfl
    | some caps =>
      simp only [Option.map_some, Vector.getElem?_map]
      cases caps[slot]? with
      | none => rfl
      | some c => rfl

/-- What the sweep leaves in a slot that held `c`. -/
theorem markSlot_eq_some {o : Option Cap} (h : markSlot l capId o = some c) :
    ∃ c₀, o = some c₀ ∧ c.id = c₀.id ∧ c.rights = c₀.rights ∧ c.obj = c₀.obj ∧
      (c.revoked = true ↔ c₀.revoked = true ∨ l.isDescendant c₀.id capId = true) := by
  obtain ⟨c₀, rfl, hc⟩ := Option.map_eq_some_iff.mp h
  refine ⟨c₀, rfl, ?_⟩
  unfold condemned at hc
  split_ifs at hc with hcond
  · subst hc
    simp only [Bool.and_eq_true, Bool.not_eq_true'] at hcond
    simp [hcond.2]
  · subst hc
    cases hr : c₀.revoked with
    | true => simp
    | false =>
      simp only [hr, Bool.not_false, Bool.true_and] at hcond
      simp [hcond]

/-- A capability that was in a slot is still there after the sweep, and revoked if the
sweep came for it. -/
theorem lookupCap_sweep_of_some (h : lookupCap table pid slot = some c) :
    ∃ c', lookupCap (sweep l table capId).1 pid slot = some c' ∧ c'.channel = c.channel ∧
      (c.revoked = true → c'.revoked = true) ∧ (condemned l capId c = true → c'.revoked = true) := by
  rw [lookupCap_sweep, h]
  refine ⟨_, rfl, ?_⟩
  dsimp only
  split_ifs with hc
  · exact ⟨rfl, fun _ => rfl, fun _ => rfl⟩
  · exact ⟨rfl, id, fun h => absurd h hc⟩

theorem mem_slots {o : Option Cap} : o ∈ slots table ↔ ∃ caps ∈ table, o ∈ caps.toList :=
  List.mem_flatMap

/-- A capability is in a slot exactly when the sweep comes to it. -/
theorem some_mem_slots : some c ∈ slots table ↔ ∃ pid slot, lookupCap table pid slot = some c := by
  rw [mem_slots]
  constructor
  · rintro ⟨caps, hcaps, hc⟩
    obtain ⟨pid, hpid⟩ := List.mem_iff_getElem?.mp hcaps
    obtain ⟨slot, hslot⟩ := List.mem_iff_getElem?.mp hc
    exact ⟨pid, slot, lookupCap_eq_some.mpr ⟨caps, hpid, by rwa [Vector.getElem?_toList] at hslot⟩⟩
  · rintro ⟨pid, slot, h⟩
    obtain ⟨caps, hpid, hslot⟩ := lookupCap_eq_some.mp h
    refine ⟨caps, List.mem_of_getElem? hpid, List.mem_of_getElem? (i := slot) ?_⟩
    rwa [Vector.getElem?_toList]

theorem mem_countSlot {acc : ℕ × List ℕ} {o : Option Cap} {ch : ℕ} :
    ch ∈ (countSlot l capId acc o).2 ↔
      ch ∈ acc.2 ∨ ∃ c, o = some c ∧ condemned l capId c = true ∧ c.channel = some ch := by
  cases o with
  | none => simp [countSlot]
  | some c =>
    unfold countSlot
    dsimp only
    cases hc : condemned l capId c with
    | false => simp [hc]
    | true =>
      cases hch : c.channel with
      | none => simp [hch]
      | some ch' =>
        by_cases hmem : acc.2.contains ch'
        · have hin := List.contains_iff_mem.mp hmem
          simp only [hc, hch, hmem, if_true, Option.some.injEq, exists_eq_left', true_and]
          exact ⟨.inl, fun h => h.elim id fun h => h ▸ hin⟩
        · simp only [hc, hch, hmem, if_true, Bool.false_eq_true, if_false, Option.some.injEq,
            exists_eq_left', true_and, List.mem_append, List.mem_singleton]
          exact or_congr_right eq_comm

/-- `revoke` will wake exactly the channels of what it marked. -/
theorem mem_affected_iff {ch : ℕ} : ch ∈ (sweep l table capId).2.2 ↔
    ∃ pid slot c, lookupCap table pid slot = some c ∧ condemned l capId c = true ∧
      c.channel = some ch := by
  have hfold : ∀ (os : List (Option Cap)) (acc : ℕ × List ℕ),
      ch ∈ (os.foldl (countSlot l capId) acc).2 ↔ ch ∈ acc.2 ∨
        ∃ c, some c ∈ os ∧ condemned l capId c = true ∧ c.channel = some ch := by
    intro os
    induction os with
    | nil => simp
    | cons o os ih =>
      intro acc
      rw [List.foldl_cons, ih, mem_countSlot, or_assoc]
      refine or_congr_right ?_
      constructor
      · rintro (⟨c, rfl, h⟩ | ⟨c, hc, h⟩)
        · exact ⟨c, List.mem_cons_self, h⟩
        · exact ⟨c, List.mem_cons_of_mem _ hc, h⟩
      · rintro ⟨c, hc, h⟩
        rcases List.mem_cons.mp hc with hc | hc
        · exact .inl ⟨c, hc.symm, h⟩
        · exact .inr ⟨c, hc, h⟩
  unfold sweep
  rw [hfold]
  constructor
  · rintro (h | ⟨c, hc, h⟩)
    · cases h
    · obtain ⟨pid, slot, hl⟩ := some_mem_slots.mp hc
      exact ⟨pid, slot, c, hl, h⟩
  · rintro ⟨pid, slot, c, hl, h⟩
    exact .inr ⟨c, some_mem_slots.mpr ⟨pid, slot, hl⟩, h⟩

end

end JungeyOs.Proc
