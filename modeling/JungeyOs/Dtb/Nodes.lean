import JungeyOs.Dtb.Flattening
import JungeyOs.Dtb.Lookup
import Mathlib.Data.List.Infix

/-!
# The nodes of a tree

What a device tree says of the devices that have a string, and the loops of `kernel/src/dtb.rs` over the
events of its flattening (lines 136–303). `cut` is what a number of the tree becomes in a `u64`.

Results:
* `scan_of_yields`: a loop over the events of a flattening, by what it makes of the events of the tree.
* `foldl_lookup`: a variable that one property sets, behind all properties of a node.
-/

namespace JungeyOs.Dtb

open Bytes Reads
open Jlfs (asBytes)

/-! ## Loops over the events of a tree -/

/-- What a loop comes to, by what it makes of each event. -/
def comesTo {π ρ : Type} (see : π → Seen → π ⊕ ρ) (result : π → ρ) : π → List Seen → ρ
  | p, [] => result p
  | p, e :: es =>
    match see p e with
    | .inl p => comesTo see result p es
    | .inr r => r

section

variable {σ π ρ ρ' : Type} {blob : List UInt8} {n : ℕ} {f : Fdt}

/-- A loop over the events of a flattening returns what the same loop over the events of the tree does, if
their bodies agree. -/
theorem scan_of_yields {body : σ → Walker → Event → Reads UInt8 (σ ⊕ ρ)} {result : σ → ρ}
    {see : π → Seen → π ⊕ ρ'} {result' : π → ρ'} (R : σ → π → Prop) (Q : ρ → ρ' → Prop)
    (hbody : ∀ s p w ev e, R s p → ev.Stands blob e →
      (body s w ev).Safe blob n ∧ Sum.LiftRel R Q ((body s w ev).value blob) (see p e))
    (hresult : ∀ s p, R s p → Q (result s) (result' p)) {w : Walker} {evs : List (Event × Walker)}
    (hyields : Yields f blob n w evs) : ∀ {fuel : ℕ} {s : σ} {p : π} {es : List Seen},
    f.structSize ≤ w.pos + fuel → List.Forall₂ (fun e s => e.1.Stands blob s) evs es → R s p →
      (scan f body result fuel w s).Safe blob n ∧
        Q ((scan f body result fuel w s).value blob) (comesTo see result' p es) := by
  induction hyields with
  | @done w hsafe hvalue =>
    intro fuel s p es hfuel hstands hr
    obtain rfl := List.forall₂_nil_left_iff.mp hstands
    cases fuel with
    | zero => exact ⟨safe_pure _, hresult s p hr⟩
    | succ fuel =>
      rw [scan, safe_bind, value_bind, and_iff_right hsafe]
      rcases hnext : (w.nextEvent f).value blob with ⟨_ | ev, w'⟩
      · exact ⟨safe_pure _, hresult s p hr⟩
      · rw [hnext] at hvalue
        cases hvalue
  | @next w w' ev evs hsafe hvalue _ ih =>
    intro fuel s p es hfuel hstands hr
    obtain ⟨e, es, hhead, htail, rfl⟩ := List.forall₂_cons_left_iff.mp hstands
    have htook : Walker.Took f w ((w.nextEvent f).value blob) := (Walker.nextEvent_took f w).value
    rw [hvalue] at htook
    obtain ⟨hsize, hpos⟩ : w.pos + 4 ≤ f.structSize ∧ w.pos + 4 ≤ w'.pos := htook rfl
    obtain ⟨hbodySafe, hbodyValue⟩ := hbody s p w' ev e hr hhead
    cases fuel with
    | zero => omega
    | succ fuel =>
      rw [scan, safe_bind, value_bind, and_iff_right hsafe, hvalue, comesTo]
      dsimp only
      rw [safe_bind, value_bind, and_iff_right hbodySafe]
      generalize (body s w' ev).value blob = next at hbodyValue ⊢
      generalize see p e = next' at hbodyValue ⊢
      cases hbodyValue with
      | inl hr' => exact ih (by omega) htail hr'
      | inr hq => exact ⟨safe_pure _, hq⟩

end

/-! ## What the tree says -/

/-- A node: its properties, and whether it has no children. -/
structure Node where
  props : List (String × List UInt8)
  leaf : Bool

def Nodes.isNil : Nodes → Bool
  | .nil => true
  | .node .. => false

theorem Nodes.eq_nil {nodes : Nodes} (h : nodes.isNil = true) : nodes = .nil := by
  cases nodes with
  | nil => rfl
  | node => cases h

/-- The nodes in preorder. -/
def Nodes.flat : Nodes → List Node
  | .nil => []
  | .node _ props children next => ⟨props, children.isNil⟩ :: children.flat ++ next.flat

def Tree.flat (t : Tree) : List Node := t.nodes.flat

/-- The two numbers of a `reg` with `a` and `s` cells. -/
def pairOf (a s : ℕ) (reg : List UInt8) : ℕ × ℕ :=
  (ofBE (reg.take (a * 4)), ofBE ((reg.drop (a * 4)).take (s * 4)))

/-- The first pair, if there is one. -/
def firstPair (a s : ℕ) (reg : List UInt8) : Option (ℕ × ℕ) :=
  if (a + s) * 4 ≤ reg.length then some (pairOf a s reg) else none

/-- The `reg` of a node whose list has the wanted string among the entries that NULs separate. -/
def regOf (want : List UInt8) (compat reg : Option (List UInt8)) : Option (List UInt8) :=
  match compat, reg with
  | some compat, some reg => if want ∈ compat.splitOn 0 then some reg else none
  | _, _ => none

/-- The `reg` among the properties of a node that is compatible. -/
def regFor (want : List UInt8) (props : List (String × List UInt8)) : Option (List UInt8) :=
  regOf want (props.lookup "compatible") (props.lookup "reg")

/-- The first pair of a node that is compatible. -/
def Node.device (want : List UInt8) (a s : ℕ) (node : Node) : Option (ℕ × ℕ) :=
  (regFor want node.props).bind (firstPair a s)

/-- The first pairs of the nodes whose list has the string and whose `reg` has a pair, in preorder. -/
def Tree.pairs (t : Tree) (c : String) (a s : ℕ) : List (ℕ × ℕ) :=
  t.flat.filterMap (Node.device (asBytes c) a s)

/-- The base and size of a device. -/
def DeviceNode.pair (d : DeviceNode) : ℕ × ℕ := (d.base, d.size)

/-- What a property says of the number of cells. -/
def cellsOf (value : List UInt8) : Option ℕ :=
  if 4 ≤ value.length then some (ofBE (value.take 4)) else none

/-- The number of cells that properties of the root have declared, two as long as they have not. -/
def declared (name : String) (props : List (String × List UInt8)) : ℕ :=
  ((props.lookup name).bind cellsOf).getD 2

/-- The first pair of the root, if it is compatible and as far as there is one, under the cells that are
declared once both properties have come. -/
def Tree.rootHit (t : Tree) (want : List UInt8) : Option (Option (ℕ × ℕ)) :=
  t.props.inits.findSome? fun props => (regFor want props).map
    (firstPair (declared "#address-cells" props) (declared "#size-cells" props))

/-- A number as a `u64` holds it. -/
def cut (p : ℕ × ℕ) : ℕ × ℕ := (p.1 % 2 ^ 64, p.2 % 2 ^ 64)

/-- What `devices` finds of a node: nothing if there are nodes below it. -/
def Node.found (want : List UInt8) (a s : ℕ) (node : Node) : Option (ℕ × ℕ) :=
  if node.leaf then (node.device want a s).map cut else none

/-- Names without NULs, each once in a node, and a root that says with how many cells every `reg` is
written. -/
structure Tree.WellFormed (t : Tree) (a s : ℕ) : Prop where
  nulFree : ∀ e ∈ t.events, e.NulFree
  unique : ∀ node ∈ t.flat, (node.props.map Prod.fst).Nodup
  addrCells : t.props.lookup "#address-cells" = some (beList 4 a)
  addrLt : a < 2 ^ 32
  sizeCells : t.props.lookup "#size-cells" = some (beList 4 s)
  sizeLt : s < 2 ^ 32

/-! ## Properties one after another -/

section

variable {π V γ : Type} {set : π → String × V → π} {name : String}

/-- A variable that one property sets holds that property behind all properties of a node. -/
theorem foldl_lookup {g : π → γ} {f : V → Option γ}
    (hset : ∀ p x, g (set p x) = if x.1 = name then (f x.2).getD (g p) else g p)
    (props : List (String × V)) : ∀ {p : π}, (props.map Prod.fst).Nodup →
    g (props.foldl set p) = ((props.lookup name).bind f).getD (g p) := by
  induction props with
  | nil => exact fun _ => rfl
  | cons x props ih =>
    intro p hnodup
    obtain ⟨hnot, hnodup⟩ := List.nodup_cons.mp hnodup
    rw [List.foldl_cons, ih hnodup, hset, List.lookup_cons]
    by_cases hx : x.1 = name
    · have hnone : props.lookup name = none := by
        rw [List.lookup_eq_none_iff]
        rintro ⟨y, v⟩ hmem
        simp only [bne_iff_ne]
        rintro rfl
        exact hnot (List.mem_map.mpr ⟨(_, v), hmem, hx.symm⟩)
      rw [if_pos hx, hnone, hx, beq_self_eq_true]
      rfl
    · have hne : (name == x.1) = false := beq_eq_false_iff_ne.mpr fun h => hx h.symm
      rw [if_neg hx, hne]

theorem foldl_lookup_some {g : π → Option V}
    (hset : ∀ p x, g (set p x) = if x.1 = name then some x.2 else g p) (props : List (String × V)) {p : π}
    (hunique : (props.map Prod.fst).Nodup) :
    g (props.foldl set p) = (props.lookup name).or (g p) := by
  rw [foldl_lookup (f := fun v => some (some v)) hset props hunique]
  cases props.lookup name <;> rfl

end

/-- Some properties of a node say as much as all do, or nothing. -/
theorem regFor_prefix (want : List UInt8) {init props : List (String × List UInt8)} (h : init <+: props) :
    regFor want init = none ∨ regFor want init = regFor want props := by
  obtain ⟨more, rfl⟩ := h
  rw [regFor, regFor, List.lookup_append, List.lookup_append]
  cases init.lookup "compatible" with
  | none => exact Or.inl rfl
  | some compat =>
    cases init.lookup "reg" with
    | none => exact Or.inl rfl
    | some reg => exact Or.inr rfl

theorem findSome?_congr {α β : Type} {f g : α → Option β} {l : List α} (h : ∀ x ∈ l, f x = g x) :
    l.findSome? f = l.findSome? g := by
  induction l with
  | nil => rfl
  | cons x l ih =>
    obtain ⟨hx, hl⟩ := List.forall_mem_cons.mp h
    rw [List.findSome?_cons, List.findSome?_cons, hx, ih hl]

theorem findSome?_inits {α β : Type} {f : List α → Option β} {l : List α}
    (h : ∀ init, init <+: l → f init = none ∨ f init = f l) : l.inits.findSome? f = f l := by
  cases hfind : l.inits.findSome? f with
  | none =>
    have hl := List.findSome?_eq_none_iff.mp hfind l ((List.mem_inits l l).mpr List.prefix_rfl)
    exact hl.symm
  | some b =>
    obtain ⟨init, hmem, hinit⟩ := List.exists_of_findSome?_eq_some hfind
    obtain hnone | hl := h init ((List.mem_inits init l).mp hmem)
    · rw [hnone] at hinit
      cases hinit
    · rw [← hl, hinit]

theorem cellsOf_beList {v : ℕ} (h : v < 2 ^ 32) : cellsOf (beList 4 v) = some v := by
  have hlen : (beList 4 v).length = 4 := length_beList 4 v
  rw [cellsOf, if_pos hlen.ge, List.take_of_length_le hlen.le, ofBE_beList (by omega)]

/-- What a property at `depth` says of it: one of the root does. -/
def rootCells (depth : ℕ) (value : List UInt8) : Option ℕ :=
  if depth = 1 then cellsOf value else none

theorem rootCells_below {depth : ℕ} (h : 2 ≤ depth) (o : Option (List UInt8)) (v : ℕ) :
    (o.bind (rootCells depth)).getD v = v := by
  cases o with
  | none => rfl
  | some value =>
    rw [Option.bind_some, rootCells, if_neg (by omega)]
    rfl

end JungeyOs.Dtb
