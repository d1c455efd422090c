import JungeyOs.Cap
import JungeyOs.Lib.Run

/-!
# The lineage of a capability

Runs of `root_for` and `derive_for` of `kernel/src/cap.rs`, lines 118–149, from an empty ledger.
A process holds copies of the capabilities that were minted; a copy may have been revoked since.
The walks over the ledger, lines 98–109 and 200–213, are given again as the steps of their loops,
so that it can be said that they end.

Results:
* `Minted.inv_reachable`: the ledger and the capabilities agree, and each was derived from an
  earlier one that it narrows.
* `lineage`: what the walks return in every state of every run.
-/

namespace JungeyOs

/-! ## The loops -/

namespace Ledger

/-- `ChainReturns l cur room out`: the loop of `chain` (lines 102–107) at `cur`, with `room` entries
left, ends and has written `out`. -/
inductive ChainReturns (l : Ledger) : (cur room : ℕ) → List (ℕ × Provenance) → Prop
  | root {room : ℕ} : ChainReturns l 0 room []
  | full {cur : ℕ} : ChainReturns l cur 0 []
  | missing {cur room : ℕ} : cur ≠ 0 → l[cur - 1]? = none → ChainReturns l cur room []
  | link {cur room : ℕ} {p : Provenance} {out : List (ℕ × Provenance)} : cur ≠ 0 →
      l[cur - 1]? = some p → ChainReturns l p.parent room out →
      ChainReturns l cur (room + 1) ((cur, p) :: out)

/-- `IsDescendantReturns l ancestor cur b`: the loop of `is_descendant` (lines 203–211) at `cur`
ends with `b`. -/
inductive IsDescendantReturns (l : Ledger) (ancestor : ℕ) : (cur : ℕ) → Bool → Prop
  | root : IsDescendantReturns l ancestor 0 false
  | found {cur : ℕ} : cur ≠ 0 → cur = ancestor → IsDescendantReturns l ancestor cur true
  | missing {cur : ℕ} : cur ≠ 0 → cur ≠ ancestor → l[cur - 1]? = none →
      IsDescendantReturns l ancestor cur false
  | up {cur : ℕ} {p : Provenance} {b : Bool} : cur ≠ 0 → cur ≠ ancestor → l[cur - 1]? = some p →
      IsDescendantReturns l ancestor p.parent b → IsDescendantReturns l ancestor cur b

section

variable {l : Ledger} {ancestor : ℕ}

/-- With more fuel than the id the loop of `chain` ends by itself. -/
theorem chainLoop_returns (h : l.WF) {fuel : ℕ} :
    ∀ cur < fuel, ∀ room, ChainReturns l cur room (chainLoop l fuel cur room) := by
  induction fuel with
  | zero => intro cur hcur; omega
  | succ fuel ih =>
    intro cur hcur room
    rw [chainLoop]
    by_cases h0 : cur = 0
    · subst h0
      exact .root
    · cases room with
      | zero =>
        rw [if_neg fun hroom => absurd hroom.2 (Nat.lt_irrefl 0)]
        exact .full
      | succ room =>
        rw [if_pos ⟨h0, room.succ_pos⟩]
        cases hp : l[cur - 1]? with
        | none => exact .missing h0 hp
        | some p =>
          have hlt := h _ _ hp
          exact .link h0 hp (ih p.parent (by omega) room)

/-- With more fuel than the id the loop of `is_descendant` ends by itself. -/
theorem isDescendantLoop_returns (h : l.WF) {fuel : ℕ} :
    ∀ cur < fuel, IsDescendantReturns l ancestor cur (isDescendantLoop l ancestor fuel cur) := by
  induction fuel with
  | zero => intro cur hcur; omega
  | succ fuel ih =>
    intro cur hcur
    rw [isDescendantLoop]
    by_cases h0 : cur = 0
    · subst h0
      exact .root
    · rw [if_neg h0]
      by_cases ha : cur = ancestor
      · rw [if_pos ha]
        exact .found h0 ha
      · rw [if_neg ha]
        cases hp : l[cur - 1]? with
        | none => exact .missing h0 ha hp
        | some p =>
          have hlt := h _ _ hp
          exact .up h0 ha hp (ih p.parent (by omega))

end

/-! ## The whole line -/

/-- `line` lists `x` and its ancestors, nearest first, each with its entry of the ledger. -/
structure Line (l : Ledger) (x : ℕ) (line : List (ℕ × Provenance)) : Prop where
  head : line.head?.map Prod.fst = some x
  next : line.IsChain fun a b => a.2.parent = b.1
  last : line.getLast?.map (fun a => a.2.parent) = some 0
  entry : ∀ a ∈ line, a.1 ≠ 0 ∧ l[a.1 - 1]? = some a.2
  mem_iff : ∀ a, a ∈ line.map Prod.fst ↔ Forest.Under l.parent a x

section

variable {l : Ledger} {x : ℕ}

theorem Line.root {p : Provenance} (h0 : x ≠ 0) (hp : l[x - 1]? = some p) (hroot : p.parent = 0) :
    Line l x [(x, p)] where
  head := rfl
  next := .singleton _
  last := congrArg some hroot
  entry a ha := by
    obtain rfl := List.mem_singleton.mp ha
    exact ⟨h0, hp⟩
  mem_iff a := by
    have hup : l.parent x = some 0 := by rw [parent, hp, Option.map_some, hroot]
    rw [Forest.under_iff h0 hup, or_iff_left Forest.under_zero]
    exact List.mem_singleton

theorem Line.link {p : Provenance} {line : List (ℕ × Provenance)} (h : Line l p.parent line)
    (h0 : x ≠ 0) (hp : l[x - 1]? = some p) : Line l x ((x, p) :: line) := by
  have hup : l.parent x = some p.parent := by rw [parent, hp, Option.map_some]
  cases line with
  | nil => cases h.head
  | cons b line =>
    have hhead : b.1 = p.parent := Option.some.inj h.head
    refine ⟨rfl, .cons_cons hhead.symm h.next, ?_, fun a ha => ?_, fun a => ?_⟩
    · rw [List.getLast?_cons_cons]
      exact h.last
    · rcases List.mem_cons.mp ha with rfl | ha
      · exact ⟨h0, hp⟩
      · exact h.entry a ha
    · rw [List.map_cons, List.mem_cons, h.mem_iff, Forest.under_iff h0 hup]

/-- The loop of `chain` at a capability of the ledger writes its line, as far as there is room. -/
theorem exists_line (h : l.WF) (x : ℕ) (h0 : x ≠ 0) (hx : x ≤ l.length) :
    ∃ line, Line l x line ∧ ∀ fuel, x < fuel → ∀ room, chainLoop l fuel x room = line.take room := by
  induction x using Nat.strongRecOn with
  | ind x ih =>
    have hp : l[x - 1]? = some l[x - 1] := List.getElem?_eq_getElem (by omega)
    have hlt := h _ _ hp
    -- what one round does, once the rest of the line is known
    have hround : ∀ rest : List (ℕ × Provenance), (∀ fuel, l[x - 1].parent < fuel → ∀ room,
        chainLoop l fuel l[x - 1].parent room = rest.take room) →
        ∀ fuel, x < fuel → ∀ room,
          chainLoop l fuel x room = ((x, l[x - 1]) :: rest).take room := by
      intro rest hrest fuel hfuel room
      obtain ⟨fuel, rfl⟩ := Nat.exists_eq_succ_of_ne_zero (Nat.ne_zero_of_lt hfuel)
      rw [chainLoop]
      cases room with
      | zero => rw [if_neg fun hroom => absurd hroom.2 (Nat.lt_irrefl 0), List.take_zero]
      | succ room =>
        rw [if_pos ⟨h0, room.succ_pos⟩, hp, List.take_succ_cons]
        exact congrArg _ (hrest fuel (by omega) room)
    by_cases hroot : l[x - 1].parent = 0
    · refine ⟨_, .root h0 hp hroot, hround [] fun fuel hfuel room => ?_⟩
      obtain ⟨fuel, rfl⟩ := Nat.exists_eq_succ_of_ne_zero (Nat.ne_zero_of_lt hfuel)
      rw [hroot, chainLoop, if_neg fun hcur => hcur.1 rfl, List.take_nil]
    · obtain ⟨line, hline, hloop⟩ := ih l[x - 1].parent (by omega) hroot (by omega)
      exact ⟨_, hline.link h0 hp, hround line hloop⟩

end

end Ledger

/-! ## Runs -/

/-- The ledger and every capability that was minted, oldest first. -/
structure Minted where
  ledger : Ledger
  caps : List Cap

namespace Minted

/-- `c` is a copy of a capability that was minted, which may have been revoked since. -/
def Copied (s : Minted) (c : Cap) : Prop := ∃ m ∈ s.caps, c = { m with revoked := c.revoked }

instance (s : Minted) (c : Cap) : Decidable (s.Copied c) :=
  inferInstanceAs (Decidable (∃ m ∈ s.caps, c = { m with revoked := c.revoked }))

inductive Act
  | rootFor (obj : Obj) (rights : UInt32) (holder purpose : String)
  | deriveFor (c : Cap) (rights : UInt32) (holder purpose : String)

/-- The state with what a call has minted. -/
def mint (s : Minted) (r : Ledger × Cap) : Minted := ⟨r.1, s.caps ++ [r.2]⟩

/-- A capability is derived from a copy of one that was minted. -/
def step (s : Minted) : Act → Option Minted
  | .rootFor obj rights holder purpose => some (s.mint (Cap.rootFor s.ledger obj rights holder purpose))
  | .deriveFor c rights holder purpose =>
    if s.Copied c then some (s.mint (c.deriveFor s.ledger rights holder purpose)) else none

/-- Nothing was minted. -/
def boot : Minted := ⟨[], []⟩

/-- `x` names the object of `a` and has no right that `a` has not. -/
structure Narrows (x a : Cap) : Prop where
  obj : x.obj = a.obj
  rights : x.rights &&& a.rights = x.rights

namespace Narrows

variable {x a b : Cap}

theorem refl (x : Cap) : Narrows x x := ⟨rfl, UInt32.and_self⟩

theorem trans (h : Narrows x a) (h' : Narrows a b) : Narrows x b where
  obj := h.obj.trans h'.obj
  rights := by
    calc x.rights &&& b.rights
        = x.rights &&& a.rights &&& b.rights := by rw [h.rights]
      _ = x.rights &&& (a.rights &&& b.rights) := UInt32.and_assoc ..
      _ = x.rights := by rw [h'.rights, h.rights]

end Narrows

/-- The entry of `c`, the capability at index `i`: it tells the rights of `c`, and its parent is an
earlier capability, which `c` narrows. -/
structure Entry (s : Minted) (i : ℕ) (c : Cap) (p : Provenance) : Prop where
  id : c.id = i + 1
  rights : p.rights = c.rights
  holder : p.holder = c.holder
  purpose : p.purpose = c.purpose
  parent : p.parent = 0 ∨
    p.parent ≤ i ∧ ∃ a, s.caps[p.parent - 1]? = some a ∧ Narrows c a

/-- The ledger has one entry for each capability. -/
structure Inv (s : Minted) : Prop where
  length : s.ledger.length = s.caps.length
  entry : ∀ i c, s.caps[i]? = some c → ∃ p, s.ledger[i]? = some p ∧ Entry s i c p

section

variable {s s' : Minted} {a : Act} {c x : Cap} {i p : ℕ}

theorem Inv.wf (h : s.Inv) : s.ledger.WF := by
  intro i p hp
  have hi : i < s.caps.length := h.length ▸ (List.getElem?_eq_some_iff.mp hp).1
  obtain ⟨q, hq, hentry⟩ := h.entry i s.caps[i] (List.getElem?_eq_getElem hi)
  obtain rfl := Option.some.inj (hp.symm.trans hq)
  rcases hentry.parent with h0 | ⟨hle, -⟩
  · omega
  · exact hle

/-- A copy has the id, the object and the rights of a capability that was minted. -/
theorem Inv.copied (h : s.Inv) (hc : s.Copied c) :
    ∃ i m, s.caps[i]? = some m ∧ c.id = i + 1 ∧ Narrows c m ∧ Narrows m c := by
  obtain ⟨m, hm, hcm⟩ := hc
  obtain ⟨i, hi⟩ := List.mem_iff_getElem?.mp hm
  obtain ⟨q, -, hentry⟩ := h.entry i m hi
  rw [hcm]
  exact ⟨i, m, hi, hentry.id, ⟨rfl, UInt32.and_self⟩, ⟨rfl, UInt32.and_self⟩⟩

theorem getElem?_append_of_some (l : List Cap) (c : Cap) {m : Cap} (h : l[i]? = some m) :
    (l ++ [c])[i]? = some m := by
  rw [List.getElem?_append_left (List.getElem?_eq_some_iff.mp h).1, h]

/-- A capability is minted with its entry. -/
theorem Inv.mint (h : s.Inv) (hid : c.id = s.ledger.length + 1)
    (hparent : p = 0 ∨ p ≤ s.ledger.length ∧ ∃ m, s.caps[p - 1]? = some m ∧ Narrows c m) :
    (s.mint ((s.ledger.register p c.holder c.purpose c.rights).1, c)).Inv := by
  refine ⟨?_, fun i x hx => ?_⟩
  · simp only [Minted.mint, Ledger.register, List.length_append, List.length_singleton, h.length]
  · rcases Nat.lt_trichotomy i s.caps.length with hi | rfl | hi
    · have hold : s.caps[i]? = some x := (List.getElem?_append_left hi).symm.trans hx
      obtain ⟨q, hq, hentry⟩ := h.entry i x hold
      refine ⟨q, ?_, { hentry with parent := ?_ }⟩
      · exact (List.getElem?_append_left (h.length ▸ hi)).trans hq
      · rcases hentry.parent with h0 | ⟨hle, m, hm, hnarrow⟩
        · exact .inl h0
        · exact .inr ⟨hle, m, getElem?_append_of_some s.caps c hm, hnarrow⟩
    · obtain rfl : c = x := Option.some.inj (List.getElem?_concat_length.symm.trans hx)
      refine ⟨_, h.length ▸ List.getElem?_concat_length, h.length ▸ hid, rfl, rfl, rfl, ?_⟩
      rcases hparent with h0 | ⟨hle, m, hm, hnarrow⟩
      · exact .inl h0
      · exact .inr ⟨h.length ▸ hle, m, getElem?_append_of_some s.caps c hm, hnarrow⟩
    · have hlen : (s.caps ++ [c]).length ≤ i := by
        rw [List.length_append, List.length_singleton]
        omega
      rw [show (s.mint _).caps = s.caps ++ [c] from rfl, List.getElem?_eq_none hlen] at hx
      cases hx

theorem Inv.step (h : s.Inv) (hs : s.step a = some s') : s'.Inv := by
  cases a with
  | rootFor obj rights holder purpose =>
    obtain rfl := Option.some.inj hs
    exact h.mint (c := ⟨_, obj, rights, false, holder, purpose⟩) rfl (.inl rfl)
  | deriveFor c rights holder purpose =>
    rw [Minted.step] at hs
    by_cases hc : s.Copied c
    · rw [if_pos hc] at hs
      obtain rfl := Option.some.inj hs
      obtain ⟨i, m, hm, hid, hcm, -⟩ := h.copied hc
      have hi : i < s.ledger.length := h.length ▸ (List.getElem?_eq_some_iff.mp hm).1
      have hnarrow : Narrows ⟨s.ledger.length + 1, c.obj, c.rights &&& rights, c.revoked, holder,
          purpose⟩ c := by
        refine ⟨rfl, ?_⟩
        show c.rights &&& rights &&& c.rights = c.rights &&& rights
        rw [UInt32.and_assoc, UInt32.and_comm rights, ← UInt32.and_assoc, UInt32.and_self]
      refine h.mint (c := ⟨_, c.obj, c.rights &&& rights, c.revoked, holder, purpose⟩) rfl ?_
      refine .inr ⟨by omega, m, ?_, hnarrow.trans hcm⟩
      rw [hid, Nat.add_sub_cancel, hm]
    · rw [if_neg hc] at hs
      cases hs

theorem inv_reachable (h : Run.Reachable Minted.step Run.always (· = boot) s) : s.Inv := by
  refine h.invariant Inv ?_ fun s a s' hi _ hs => hi.step hs
  rintro s rfl
  exact ⟨rfl, fun i c hc => by cases hc⟩

/-- A capability narrows every one that it descends from. -/
theorem Inv.narrows (h : s.Inv) {b : ℕ} (hunder : Forest.Under s.ledger.parent i b) :
    ∀ x, s.caps[b - 1]? = some x → ∃ m, s.caps[i - 1]? = some m ∧ Narrows x m := by
  induction hunder with
  | self => exact fun x hx => ⟨x, hx, .refl x⟩
  | up hb hup hunder ih =>
    intro x hx
    obtain ⟨q, hq, hentry⟩ := h.entry _ x hx
    rw [Ledger.parent, hq] at hup
    obtain rfl := Option.some.inj hup
    rcases hentry.parent with h0 | ⟨-, c, hc, hnarrow⟩
    · rw [h0] at hunder
      exact absurd hunder Forest.under_zero
    · obtain ⟨m, hm, hcm⟩ := ih c hc
      exact ⟨m, hm, hnarrow.trans hcm⟩

end

/-- In every state of every run: the parent of an entry is smaller than its id; the walks end;
`is_descendant` holds of a capability and an ancestor, itself included, and then the one narrows
the other; and `chain` lists a capability and its ancestors, nearest first, as far as the output
has room. -/
theorem lineage {s : Minted} (h : Run.Reachable Minted.step Run.always (· = boot) s) :
    (∀ i p, s.ledger[i]? = some p → p.parent < i + 1) ∧
    (∀ id ancestor, s.ledger.IsDescendantReturns ancestor id (s.ledger.isDescendant id ancestor)) ∧
    (∀ id room, s.ledger.ChainReturns id room (s.ledger.chain id room)) ∧
    (∀ id ancestor, s.ledger.isDescendant id ancestor = true ↔
      Forest.Under s.ledger.parent ancestor id) ∧
    (∀ x a, s.Copied x → s.Copied a → s.ledger.isDescendant x.id a.id = true → Narrows x a) ∧
    ∀ x, s.Copied x → ∃ line, s.ledger.Line x.id line ∧
      ∀ room, s.ledger.chain x.id room = line.take room := by
  have hinv := inv_reachable h
  have hwf := hinv.wf
  refine ⟨fun i p hp => Nat.lt_succ_of_le (hwf i p hp), fun id a => ?_, fun id room => ?_,
    fun id a => Ledger.isDescendant_iff hwf, fun x a hx ha hdesc => ?_, fun x hx => ?_⟩
  · exact Ledger.isDescendantLoop_returns hwf id id.lt_succ_self
  · exact Ledger.chainLoop_returns hwf id id.lt_succ_self room
  · obtain ⟨i, m, hm, hid, hxm, -⟩ := hinv.copied hx
    obtain ⟨j, n, hn, hjd, -, hna⟩ := hinv.copied ha
    have hunder := (Ledger.isDescendant_iff hwf).mp hdesc
    obtain ⟨k, hk, hmk⟩ := hinv.narrows hunder m (by rw [hid, Nat.add_sub_cancel, hm])
    rw [hjd, Nat.add_sub_cancel, hn] at hk
    obtain rfl := Option.some.inj hk
    exact hxm.trans (hmk.trans hna)
  · obtain ⟨i, m, hm, hid, -, -⟩ := hinv.copied hx
    have hi : i < s.ledger.length := hinv.length ▸ (List.getElem?_eq_some_iff.mp hm).1
    obtain ⟨line, hline, hloop⟩ := Ledger.exists_line hwf x.id (by omega) (by omega)
    exact ⟨line, hline, hloop _ x.id.lt_succ_self⟩

/-- A channel is handed to an agent, which hands it to a tool; the agent's copy was revoked before. -/
def delegated : List Act :=
  [.rootFor (.channel 0) RIGHTS_ALL "kernel" "created the object",
    .deriveFor ⟨1, .channel 0, RIGHTS_ALL, false, "kernel", "created the object"⟩ 3 "agent" "task",
    .deriveFor ⟨2, .channel 0, 3, true, "agent", "task"⟩ RIGHT_SEND "tool" "step"]

/-- What holds of the tool's capability and the first one. -/
theorem lineage_delegated : ∃ s, Run.exec step boot delegated = some s ∧
    (s.ledger.isDescendant 3 1 = true ↔ Forest.Under s.ledger.parent 1 3) ∧
    Narrows ⟨3, .channel 0, RIGHT_SEND, true, "tool", "step"⟩
      ⟨1, .channel 0, RIGHTS_ALL, false, "kernel", "created the object"⟩ := by
  have hexec : Run.exec step boot delegated = some _ := rfl
  have hlin := lineage (Run.reachable_of_exec rfl hexec)
  exact ⟨_, hexec, hlin.2.2.2.1 3 1, hlin.2.2.2.2.1 _ _ (by decide) (by decide) (by decide)⟩

end Minted

end JungeyOs
