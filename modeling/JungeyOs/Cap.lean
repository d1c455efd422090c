import JungeyOs.Lib.Forest
import Mathlib.Data.List.Basic

/-!
# Capabilities

Models of `kernel/src/cap.rs`: capabilities, and the ledger that records for every
one ever minted which one it was derived from. The ledger is passed explicitly.

Results:
* `isDescendant_iff`: `is_descendant` decides ancestry in the ledger.
* `mem_chain_iff`: the chain of an id lists exactly its ancestors.
* `isDescendant_register`, `isDescendant_new`: what minting does to ancestry.
-/

namespace JungeyOs

/-! ## Rights (lines 19–30) -/

def RIGHT_SEND : UInt32 := (1 : UInt32) <<< 0
def RIGHT_RECV : UInt32 := (1 : UInt32) <<< 1
def RIGHT_GRANT : UInt32 := (1 : UInt32) <<< 2
def RIGHT_MAP : UInt32 := (1 : UInt32) <<< 3
def RIGHT_IRQ : UInt32 := (1 : UInt32) <<< 4
def RIGHTS_ALL : UInt32 := RIGHT_SEND ||| RIGHT_RECV ||| RIGHT_GRANT ||| RIGHT_MAP ||| RIGHT_IRQ

/-! ## Capabilities (lines 32–83) -/

/-- `Obj` (lines 40–51). -/
inductive Obj
  | channel (c : ℕ)
  | mmio (base size : ℕ)
  | irq (line : UInt32)
  | dma (base pages : ℕ)
  | operation (name : String)
  deriving DecidableEq, Repr

/-- `Cap` (lines 54–72). -/
structure Cap where
  id : ℕ
  obj : Obj
  rights : UInt32
  revoked : Bool
  holder : String
  purpose : String
  deriving DecidableEq, Repr

/-- `Provenance` (lines 78–83). -/
structure Provenance where
  parent : ℕ
  holder : String
  purpose : String
  rights : UInt32
  deriving DecidableEq, Repr

/-! ## The ledger (lines 85–109 and 199–213) -/

/-- `LEDGER` (line 85). The entry of id `n` is at index `n - 1`. -/
abbrev Ledger := List Provenance

namespace Ledger

/-- `register` (lines 87–91): the ledger after it, and the new id. -/
def register (l : Ledger) (parent : ℕ) (holder purpose : String) (rights : UInt32) : Ledger × ℕ :=
  (l ++ [⟨parent, holder, purpose, rights⟩], l.length + 1)

/-- The loop of `chain` (lines 102–107), with `fuel` steps left. -/
def chainLoop (l : Ledger) : (fuel : ℕ) → (cur room : ℕ) → List (ℕ × Provenance)
  | 0, _, _ => []
  | fuel + 1, cur, room =>
    if cur ≠ 0 ∧ 0 < room then
      match l[cur - 1]? with
      | none => []
      | some p => (cur, p) :: chainLoop l fuel p.parent (room - 1)
    else []

/-- `chain` (lines 98–109): what it writes to an `out` of `room` entries. -/
def chain (l : Ledger) (id room : ℕ) : List (ℕ × Provenance) := chainLoop l (id + 1) id room

/-- The loop of `is_descendant` (lines 203–211), with `fuel` steps left. -/
def isDescendantLoop (l : Ledger) (ancestor : ℕ) : (fuel : ℕ) → (cur : ℕ) → Bool
  | 0, _ => false
  | fuel + 1, cur =>
    if cur = 0 then false
    else if cur = ancestor then true
    else match l[cur - 1]? with
      | some p => isDescendantLoop l ancestor fuel p.parent
      | none => false

/-- `is_descendant` (lines 200–213). -/
def isDescendant (l : Ledger) (id ancestor : ℕ) : Bool := isDescendantLoop l ancestor (id + 1) id

end Ledger

namespace Cap

/-- `Cap::root_for` (lines 118–127). -/
def rootFor (l : Ledger) (obj : Obj) (rights : UInt32) (holder purpose : String) : Ledger × Cap :=
  let (l, id) := l.register 0 holder purpose rights
  (l, ⟨id, obj, rights, false, holder, purpose⟩)

/-- `Cap::root` (lines 113–115). -/
def root (l : Ledger) (obj : Obj) (rights : UInt32) : Ledger × Cap :=
  rootFor l obj rights "kernel" "created the object"

/-- `Cap::derive_for` (lines 139–149). -/
def deriveFor (self : Cap) (l : Ledger) (rights : UInt32) (holder purpose : String) :
    Ledger × Cap :=
  let rights := self.rights &&& rights
  let (l, id) := l.register self.id holder purpose rights
  (l, ⟨id, self.obj, rights, self.revoked, holder, purpose⟩)

/-- `Cap::derive` (lines 132–134). -/
def derive (self : Cap) (l : Ledger) (rights : UInt32) : Ledger × Cap :=
  self.deriveFor l rights "unnamed" "unstated"

/-- `Cap::allows` (lines 151–153). -/
def allows (self : Cap) (right : UInt32) : Bool := !self.revoked && self.rights &&& right != 0

/-- `Cap::channel` (lines 155–160). -/
def channel (self : Cap) : Option ℕ :=
  match self.obj with
  | .channel c => some c
  | _ => none

/-- A capability allows nothing exactly when it is revoked or has no rights. -/
theorem allows_nothing_iff (c : Cap) :
    (∀ right, c.allows right = false) ↔ c.revoked = true ∨ c.rights = 0 := by
  unfold allows
  constructor
  · intro h
    have hall := h c.rights
    rw [UInt32.and_self] at hall
    simp only [Bool.and_eq_false_iff, Bool.not_eq_false', bne_eq_false_iff_eq] at hall
    exact hall
  · rintro (h | h) right
    · rw [h]
      rfl
    · rw [h, UInt32.zero_and]
      simp

end Cap

/-! ## Ancestry -/

namespace Ledger

/-- The parent of a capability; 0 for a root. -/
def parent (l : Ledger) (id : ℕ) : Option ℕ := l[id - 1]?.map Provenance.parent

/-- Every capability was derived from an earlier one. -/
def WF (l : Ledger) : Prop := ∀ i (p : Provenance), l[i]? = some p → p.parent ≤ i

section

variable {l : Ledger} {id ancestor p : ℕ} {holder purpose : String} {rights : UInt32}

theorem wf_nil : WF [] := fun _ _ h => by simp at h

/-- Minting keeps the ledger well formed. -/
theorem WF.register (h : l.WF) (hp : p ≤ l.length) : (l.register p holder purpose rights).1.WF := by
  intro i q hq
  rcases Nat.lt_trichotomy i l.length with hi | rfl | hi
  · exact h i q ((List.getElem?_append_left hi).symm.trans hq)
  · have hlast : (l.register p holder purpose rights).1[l.length]? =
        some ⟨p, holder, purpose, rights⟩ := List.getElem?_concat_length
    rw [hlast] at hq
    cases hq
    exact hp
  · have hlen : (l.register p holder purpose rights).1.length = l.length + 1 := by simp [Ledger.register]
    rw [List.getElem?_eq_none (by omega)] at hq
    cases hq

theorem WF.grown (h : l.WF) : Forest.Grown l.parent l.length := by
  refine ⟨fun b c hc hb => ?_, fun b hb => ?_⟩
  · obtain ⟨q, hq, rfl⟩ := Option.map_eq_some_iff.mp hc
    have := h _ _ hq
    omega
  · rw [Ledger.parent, Option.isSome_map, isSome_getElem?]
    omega

theorem isDescendantLoop_eq (l : Ledger) (ancestor fuel : ℕ) :
    ∀ cur, isDescendantLoop l ancestor fuel cur = Forest.search l.parent ancestor fuel cur := by
  induction fuel with
  | zero => intro cur; rfl
  | succ fuel ih =>
    intro cur
    rw [isDescendantLoop, Forest.search, Ledger.parent]
    cases l[cur - 1]? with
    | none => rfl
    | some p => simp only [ih, Option.map_some]

/-- `is_descendant` decides ancestry in the ledger. -/
theorem isDescendant_iff (h : l.WF) : l.isDescendant id ancestor = true ↔
    Forest.Under l.parent ancestor id := by
  rw [isDescendant, isDescendantLoop_eq]
  exact Forest.search_iff h.grown.lt id id.lt_succ_self

/-- The chain of an id lists exactly its ancestors, given room for all of them. -/
theorem mem_chainLoop_iff (h : l.WF) {fuel room : ℕ} : ∀ cur < fuel, cur ≤ room → cur ≤ l.length →
    (ancestor ∈ (chainLoop l fuel cur room).map Prod.fst ↔ Forest.Under l.parent ancestor cur) := by
  induction fuel generalizing room with
  | zero => intro cur hcur; omega
  | succ fuel ih =>
    intro cur hcur hroom hlen
    rw [chainLoop]
    by_cases h0 : cur = 0
    · subst h0
      simp [Forest.under_zero]
    · have hget : l[cur - 1]? = some l[cur - 1] := List.getElem?_eq_getElem (by omega)
      have hup : l.parent cur = some l[cur - 1].parent := by rw [Ledger.parent, hget]; rfl
      have hlt := h _ _ hget
      rw [if_pos ⟨h0, by omega⟩, hget, Forest.under_iff h0 hup, List.map_cons, List.mem_cons,
        ih l[cur - 1].parent (by omega) (by omega) (by omega)]

theorem mem_chain_iff (h : l.WF) (hid : id ≤ l.length) :
    ancestor ∈ (l.chain id id).map Prod.fst ↔ l.isDescendant id ancestor = true :=
  (mem_chainLoop_iff h id id.lt_succ_self (Nat.le_refl id) hid).trans (isDescendant_iff h).symm

theorem parent_register {b : ℕ} (hb : b ≤ l.length) (h0 : b ≠ 0) :
    (l.register p holder purpose rights).1.parent b = l.parent b := by
  rw [Ledger.parent, Ledger.parent, register, List.getElem?_append_left (by omega)]

/-- Minting does not change who descends from whom. -/
theorem isDescendant_register (h : l.WF) (hp : p ≤ l.length) (hid : id ≤ l.length) :
    (l.register p holder purpose rights).1.isDescendant id ancestor = l.isDescendant id ancestor := by
  rw [Bool.eq_iff_iff, isDescendant_iff h, isDescendant_iff (h.register hp)]
  exact Forest.under_congr h.grown (fun b hb => parent_register hb) id hid

/-- A new capability descends from itself and from what its parent descends from. -/
theorem isDescendant_new (h : l.WF) (hp : p ≤ l.length) :
    (l.register p holder purpose rights).1.isDescendant (l.length + 1) ancestor = true ↔
      ancestor = l.length + 1 ∨ l.isDescendant p ancestor = true := by
  have hup : (l.register p holder purpose rights).1.parent (l.length + 1) = some p := by
    rw [Ledger.parent, register]
    simp
  rw [isDescendant_iff (h.register hp), Forest.under_iff (Nat.succ_ne_zero _) hup,
    ← isDescendant_iff (h.register hp), isDescendant_register h hp hp]

end

end Ledger

end JungeyOs
