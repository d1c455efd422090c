import JungeyOs.Lib.Run
import JungeyOs.Proc

/-!
# Histories of capabilities

Calls of `Cap::root_for`, `Cap::derive_for`, `proc::create`, `proc::install_cap`,
`proc::lookup_cap` and `proc::revoke` in any order. The kernel holds every
capability that one of them returned, and may derive from it or install it at any
later time.

Results:
* `revoked_stay_dead_iff`: in a run, no table ever holds live authority under a
  revoked id exactly when no call installs such a capability.
* `revoked_installed`: a run in which one is installed.
-/

namespace JungeyOs.Revocation

open Proc

/-! ## The system -/

/-- The ledger, the tables of the processes, the capabilities that the kernel holds
itself, and the ids whose `revoke` has returned. -/
structure Kernel where
  ledger : Ledger
  table : Table
  held : List Cap
  cut : List ℕ

/-- Before any call. -/
def Kernel.boot : Kernel := ⟨[], [], [], []⟩

/-- One call. `k` is the place of a capability in `held`. -/
inductive Act
  | rootFor (obj : Obj) (rights : UInt32) (holder purpose : String)
  | deriveFor (k : ℕ) (rights : UInt32) (holder purpose : String)
  | create
  | lookup (pid slot : ℕ)
  | install (pid slot k : ℕ)
  | revoke (id : ℕ)

/-- The kernel holds one more capability. -/
def Kernel.hold (s : Kernel) (p : Ledger × Cap) : Kernel :=
  { s with ledger := p.1, held := s.held ++ [p.2] }

def Kernel.step (s : Kernel) : Act → Option Kernel
  | .rootFor obj rights holder purpose => some (s.hold (Cap.rootFor s.ledger obj rights holder purpose))
  | .deriveFor k rights holder purpose =>
    s.held[k]?.map fun c => s.hold (c.deriveFor s.ledger rights holder purpose)
  | .create => some { s with table := create s.table }
  | .lookup pid slot => (lookupCap s.table pid slot).map fun c => s.hold (s.ledger, c)
  | .install pid slot k =>
    s.held[k]?.map fun c =>
      match installCap s.table pid slot c with
      | .ok table => { s with table := table }
      | .error _ => s
  | .revoke id => some { s with table := (sweep s.ledger s.table id).1, cut := id :: s.cut }

/-- No table holds a capability that allows any right and descends from an id whose
`revoke` has returned. -/
def Kernel.Dead (s : Kernel) : Prop :=
  ∀ id ∈ s.cut, ∀ pid slot c, lookupCap s.table pid slot = some c →
    s.ledger.isDescendant c.id id = true → ∀ right, c.allows right = false

/-- The call does not put into a slot of a process an unmarked copy, with some
rights, of a capability that descends from a revoked id. -/
def Kernel.InstallsDead (s : Kernel) (a : Act) : Prop :=
  ∀ pid slot k c, a = .install pid slot k → pid < s.table.length → slot < CAP_SLOTS →
    s.held[k]? = some c → ∀ id ∈ s.cut, s.ledger.isDescendant c.id id = true →
      c.revoked = true ∨ c.rights = 0

/-! ## What the calls keep -/

/-- Every capability was minted. -/
structure Kernel.Minted (s : Kernel) : Prop where
  ledger : s.ledger.WF
  held : ∀ c ∈ s.held, c.id ≤ s.ledger.length
  table : ∀ pid slot c, lookupCap s.table pid slot = some c → c.id ≤ s.ledger.length

theorem minted_boot : Kernel.boot.Minted := by
  refine ⟨Ledger.wf_nil, by simp [Kernel.boot], fun pid slot c h => ?_⟩
  obtain ⟨caps, hcaps, -⟩ := lookupCap_eq_some.mp h
  cases hcaps

theorem dead_boot : Kernel.boot.Dead := fun _ h => by cases h

section

variable {s s' : Kernel} {a : Act}

/-- A capability that was just minted is held with the others. -/
theorem Kernel.Minted.hold (h : s.Minted) {p : ℕ} (hp : p ≤ s.ledger.length) {c : Cap}
    {holder purpose : String} {rights : UInt32}
    (hc : c.id = s.ledger.length + 1) :
    (s.hold ((s.ledger.register p holder purpose rights).1, c)).Minted := by
  have hlen : (s.ledger.register p holder purpose rights).1.length = s.ledger.length + 1 := by
    simp [Ledger.register]
  refine ⟨h.ledger.register hp, fun c' hc' => ?_, fun pid slot c' hc' => ?_⟩
  · change c'.id ≤ (s.ledger.register p holder purpose rights).1.length
    rcases List.mem_append.mp hc' with hc' | hc'
    · have := h.held c' hc'
      omega
    · rw [List.mem_singleton.mp hc', hlen]
      exact Nat.le_of_eq hc
  · have := h.table pid slot c' hc'
    change c'.id ≤ (s.ledger.register p holder purpose rights).1.length
    omega

/-- What was minted stays dead under a ledger that only grew. -/
theorem Kernel.dead_hold_iff (h : s.Minted) {p : ℕ} (hp : p ≤ s.ledger.length) {c : Cap}
    {holder purpose : String} {rights : UInt32} :
    (s.hold ((s.ledger.register p holder purpose rights).1, c)).Dead ↔ s.Dead := by
  have hsame : ∀ pid slot c', lookupCap s.table pid slot = some c' → ∀ id,
      (s.ledger.register p holder purpose rights).1.isDescendant c'.id id =
        s.ledger.isDescendant c'.id id :=
    fun pid slot c' hc' id => Ledger.isDescendant_register h.ledger hp (h.table pid slot c' hc')
  constructor
  · intro hd id hid pid slot c' hc' hdesc
    exact hd id hid pid slot c' hc' ((hsame pid slot c' hc' id).trans hdesc)
  · intro hd id hid pid slot c' hc' hdesc
    exact hd id hid pid slot c' hc' ((hsame pid slot c' hc' id).symm.trans hdesc)

theorem minted_step (h : s.Minted) (hs : s.step a = some s') : s'.Minted := by
  cases a with
  | rootFor obj rights holder purpose =>
    cases hs
    exact h.hold (Nat.zero_le _) rfl
  | deriveFor k rights holder purpose =>
    obtain ⟨c, hc, rfl⟩ := Option.map_eq_some_iff.mp hs
    exact h.hold (h.held c (List.mem_of_getElem? hc)) rfl
  | create =>
    cases hs
    exact ⟨h.ledger, h.held, fun pid slot c hc => h.table pid slot c (lookupCap_create.symm.trans hc)⟩
  | lookup pid slot =>
    obtain ⟨c, hc, rfl⟩ := Option.map_eq_some_iff.mp hs
    refine ⟨h.ledger, fun c' hc' => ?_, h.table⟩
    rcases List.mem_append.mp hc' with hc' | hc'
    · exact h.held c' hc'
    · rw [List.mem_singleton.mp hc']
      exact h.table pid slot c hc
  | install pid slot k =>
    obtain ⟨c, hc, rfl⟩ := Option.map_eq_some_iff.mp hs
    cases hi : installCap s.table pid slot c with
    | error e => exact h
    | ok table =>
      refine ⟨h.ledger, h.held, fun pid' slot' c' hc' => ?_⟩
      rw [lookupCap_installCap hi] at hc'
      split_ifs at hc' with hhere
      · cases hc'
        exact h.held c (List.mem_of_getElem? hc)
      · exact h.table pid' slot' c' hc'
  | revoke id =>
    cases hs
    refine ⟨h.ledger, h.held, fun pid slot c hc => ?_⟩
    obtain ⟨c₀, hc₀, hid, -⟩ := markSlot_eq_some (lookupCap_sweep.symm.trans hc)
    rw [hid]
    exact h.table pid slot c₀ hc₀

/-- A call keeps revoked authority dead exactly when it installs none. -/
theorem dead_step_iff (h : s.Minted) (hd : s.Dead) (hs : s.step a = some s') :
    s'.Dead ↔ s.InstallsDead a := by
  cases a with
  | rootFor obj rights holder purpose =>
    cases hs
    exact iff_of_true ((Kernel.dead_hold_iff h (Nat.zero_le _)).mpr hd) fun _ _ _ _ ha => by cases ha
  | deriveFor k rights holder purpose =>
    obtain ⟨c, hc, rfl⟩ := Option.map_eq_some_iff.mp hs
    exact iff_of_true ((Kernel.dead_hold_iff h (h.held c (List.mem_of_getElem? hc))).mpr hd)
      fun _ _ _ _ ha => by cases ha
  | create =>
    cases hs
    exact iff_of_true (fun id hid pid slot c hc => hd id hid pid slot c (lookupCap_create.symm.trans hc))
      fun _ _ _ _ ha => by cases ha
  | lookup pid slot =>
    obtain ⟨c, hc, rfl⟩ := Option.map_eq_some_iff.mp hs
    exact iff_of_true hd fun _ _ _ _ ha => by cases ha
  | install pid slot k =>
    obtain ⟨c, hc, rfl⟩ := Option.map_eq_some_iff.mp hs
    cases hi : installCap s.table pid slot c with
    | error e =>
      refine iff_of_true hd fun pid' slot' k' c' ha hpid hslot => ?_
      cases ha
      obtain ⟨table, hok⟩ := installCap_ok hpid hslot c
      rw [hi] at hok
      cases hok
    | ok table =>
      have hlook := lookupCap_installCap hi
      constructor
      · intro hd' pid' slot' k' c' ha _ _ hk' id hid hdesc
        cases ha
        rw [hc] at hk'
        cases hk'
        refine c.allows_nothing_iff.mp (hd' id hid pid slot c ?_ hdesc)
        exact (hlook pid slot).trans (if_pos ⟨rfl, rfl⟩)
      · intro hok id hid pid' slot' c' hc' hdesc
        replace hc' := (hlook pid' slot').symm.trans hc'
        split_ifs at hc' with hhere
        · cases hc'
          have hin := installCap_lt hi
          exact c.allows_nothing_iff.mpr (hok pid slot k c rfl hin.1 hin.2 hc id hid hdesc)
        · exact hd id hid pid' slot' c' hc' hdesc
  | revoke id =>
    cases hs
    refine iff_of_true (fun id' hid' pid slot c hc hdesc => ?_) fun _ _ _ _ ha => by cases ha
    obtain ⟨c₀, hc₀, hcid, hrights, -, hrevoked⟩ := markSlot_eq_some (lookupCap_sweep.symm.trans hc)
    rw [hcid] at hdesc
    refine c.allows_nothing_iff.mpr ?_
    rcases List.mem_cons.mp hid' with rfl | hid'
    · exact .inl (hrevoked.mpr (.inr hdesc))
    · rcases c₀.allows_nothing_iff.mp (hd id' hid' pid slot c₀ hc₀ hdesc) with h0 | h0
      · exact .inl (hrevoked.mpr (.inl h0))
      · exact .inr (hrights.trans h0)

end

/-! ## Runs -/

/-- In a run of calls, no table ever holds live authority under a revoked id exactly
when no call installs an unmarked copy of such a capability. -/
theorem revoked_stay_dead_iff (as : List Act) :
    Run.Throughout Kernel.step Kernel.Dead Kernel.boot as ↔
      Run.Meets Kernel.step Kernel.InstallsDead Kernel.boot as := by
  refine Run.throughout_iff_meets Kernel.Minted (fun s a s' h _ hs => minted_step h hs)
    (fun s a s' h hd hs => dead_step_iff h hd hs) (fun s a _ hs => ?_) minted_boot dead_boot as
  intro pid slot k c ha _ _ hk
  subst ha
  simp [Kernel.step, hk] at hs

/-- A capability is minted and revoked; then a weaker one is derived from the kernel's
own copy of it and installed. -/
theorem revoked_installed : ∃ s, Run.exec Kernel.step Kernel.boot
      [.create, .rootFor (.channel 0) RIGHTS_ALL "kernel" "created the object", .revoke 1,
        .deriveFor 0 RIGHT_RECV "unnamed" "unstated", .install 0 0 1] = some s ∧ ¬s.Dead := by
  refine ⟨_, rfl, fun h => ?_⟩
  have hlive := h 1 (by decide) 0 0
    ⟨2, .channel 0, RIGHT_RECV, false, "unnamed", "unstated"⟩ (by decide +kernel) (by decide +kernel) RIGHT_RECV
  exact absurd hlive (by decide)

end JungeyOs.Revocation
