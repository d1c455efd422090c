import JungeyOs.Dtb.Nodes

/-!
# The devices of a tree

`devices` and `node_regs` (`kernel/src/dtb.rs`, lines 136–246) on the flattening of a tree. Both keep the
properties of the current node in variables that every `BeginNode` clears. `node_regs` looks at them as soon
as it has both; `devices` does so at an `EndNode`, where those of a node with children are gone.

Results:
* `devices_flattening`, `nodeRegs_flattening`: what the two functions return for a tree.
* `listed_iff`: the trees for which they find what the tree says.
-/

namespace JungeyOs.Dtb

open Bytes Reads
open Jlfs (asBytes)

/-! ## `devices` -/

namespace Devices

/-- What the body makes of an event. -/
def after (want : List UInt8) (p : Devices (List UInt8) (ℕ × ℕ)) : Seen → Devices (List UInt8) (ℕ × ℕ)
  | .beginNode _ _ => p.forget
  | .prop depth name value =>
    if depth = 1 ∧ name = "#address-cells" ∧ 4 ≤ value.length then
      { p with addrCells := ofBE (value.take 4) }
    else if depth = 1 ∧ name = "#size-cells" ∧ 4 ≤ value.length then
      { p with sizeCells := ofBE (value.take 4) }
    else if name = "compatible" then { p with compat := some value }
    else if name = "reg" then { p with reg := some value }
    else if name = "interrupts" then { p with interrupts := some value }
    else p
  | .endNode =>
    match (regOf want p.compat p.reg).bind (firstPair p.addrCells p.sizeCells) with
    | some pair => { p.forget with out := p.out ++ [cut pair] }
    | none => p

/-- The body, with the test for room in front of it. -/
def see (want : List UInt8) (room : ℕ) (p : Devices (List UInt8) (ℕ × ℕ)) (e : Seen) :
    Devices (List UInt8) (ℕ × ℕ) ⊕ List (ℕ × ℕ) :=
  if room ≤ p.out.length then .inr p.out else .inl (p.after want e)

/-- The variables hold the same. -/
structure Same (blob : List UInt8) (s : Devices Slice DeviceNode) (p : Devices (List UInt8) (ℕ × ℕ)) :
    Prop where
  addrCells : s.addrCells = p.addrCells
  sizeCells : s.sizeCells = p.sizeCells
  compat : Option.Rel (Slice.Holds blob) s.compat p.compat
  reg : Option.Rel (Slice.Holds blob) s.reg p.reg
  interrupts : Option.Rel (Slice.Holds blob) s.interrupts p.interrupts
  out : s.out.map DeviceNode.pair = p.out

section

variable {blob : List UInt8} {n : ℕ} {c : String} {room : ℕ}

theorem Same.forget {s : Devices Slice DeviceNode} {p : Devices (List UInt8) (ℕ × ℕ)}
    (h : Same blob s p) : Same blob s.forget p.forget where
  addrCells := h.addrCells
  sizeCells := h.sizeCells
  compat := .none
  reg := .none
  interrupts := .none
  out := h.out

theorem irq_safe {interrupts : Option Slice} {bytes : Option (List UInt8)}
    (h : Option.Rel (Slice.Holds blob) interrupts bytes) : (irq interrupts).Safe blob n := by
  cases h with
  | none => exact safe_pure _
  | some h =>
    rw [irq, safe_bind]
    exact ⟨gicIntid_safe h, safe_pure _⟩

theorem endNode_same {a z : ℕ} {compat reg interrupts : Option Slice}
    {compat' reg' interrupts' : Option (List UInt8)} {out : List DeviceNode} {out' : List (ℕ × ℕ)}
    (hcompat : Option.Rel (Slice.Holds blob) compat compat') (hreg : Option.Rel (Slice.Holds blob) reg reg')
    (hinterrupts : Option.Rel (Slice.Holds blob) interrupts interrupts')
    (hout : out.map DeviceNode.pair = out') :
    (on c ⟨a, z, compat, reg, interrupts, out⟩ .endNode).Safe blob n ∧
      Same blob ((on c ⟨a, z, compat, reg, interrupts, out⟩ .endNode).value blob)
        (after (asBytes c) ⟨a, z, compat', reg', interrupts', out'⟩ .endNode) := by
  have hsame : Same blob ⟨a, z, compat, reg, interrupts, out⟩ ⟨a, z, compat', reg', interrupts', out'⟩ :=
    ⟨rfl, rfl, hcompat, hreg, hinterrupts, hout⟩
  cases hcompat with
  | none => exact ⟨safe_pure _, hsame⟩
  | @some v bytes hv =>
    cases hreg with
    | none => exact ⟨safe_pure _, hsame⟩
    | @some r reg hr =>
      obtain ⟨hsafe, hvalue⟩ := compatMatches_of_holds (n := n) c hv
      rw [on, after, safe_bind, value_bind, and_iff_right hsafe]
      dsimp only
      rw [regOf]
      by_cases hfound : asBytes c ∈ bytes.splitOn 0
      · rw [hvalue.mpr hfound, if_pos hfound]
        simp only [Bool.not_true, Bool.false_or, decide_eq_true_eq, hr.2, Option.bind_some, firstPair]
        by_cases hlen : reg.length < (a + z) * 4
        · rw [if_pos hlen, if_neg (Nat.not_le.mpr hlen)]
          exact ⟨safe_pure _, hsame⟩
        · obtain ⟨hbase, hbaseValue⟩ := readCells_of_holds (n := n) hr (show 0 + a * 4 ≤ reg.length by omega)
          obtain ⟨hsize, hsizeValue⟩ := readCells_of_holds (n := n) hr
            (show a * 4 + z * 4 ≤ reg.length by omega)
          have hirq := irq_safe (n := n) hinterrupts
          rw [if_neg hlen, if_pos (Nat.not_lt.mp hlen), safe_bind, value_bind, hbaseValue, safe_bind,
            value_bind, hsizeValue, safe_bind, value_bind]
          refine ⟨⟨hbase, hsize, hirq, safe_pure _⟩, { hsame.forget with out := ?_ }⟩
          rw [value_pure, List.map_append, hout]
          rfl
      · have hnot : (compatMatches v c).value blob = false := by
          rw [← Bool.not_eq_true, hvalue]
          exact hfound
        rw [hnot, if_neg hfound]
        exact ⟨safe_pure _, hsame⟩

/-- The body does what it does on the bytes. -/
theorem on_same {s : Devices Slice DeviceNode} {p : Devices (List UInt8) (ℕ × ℕ)} {ev : Event} {e : Seen}
    (h : Same blob s p) (hstands : ev.Stands blob e) :
    (s.on c ev).Safe blob n ∧ Same blob ((s.on c ev).value blob) (p.after (asBytes c) e) := by
  cases ev <;> cases e
  case beginNode.beginNode => exact ⟨safe_pure _, h.forget⟩
  case endNode.endNode =>
    obtain ⟨a, z, compat, reg, interrupts, out⟩ := s
    obtain ⟨a', z', compat', reg', interrupts', out'⟩ := p
    obtain ⟨rfl, rfl, hcompat, hreg, hinterrupts, hout⟩ := h
    exact endNode_same hcompat hreg hinterrupts hout
  case prop.prop depth name value depth' name' bytes =>
    obtain ⟨rfl, rfl, hholds⟩ := hstands
    have hlen := hholds.2
    rw [on, after, hlen]
    split_ifs with h₁ h₂ h₃ h₄ h₅
    · obtain ⟨hsafe, hvalue⟩ := be32_of_start (n := n) hholds h₁.2.2
      rw [safe_bind, value_bind, hvalue]
      exact ⟨⟨hsafe, safe_pure _⟩, { h with addrCells := rfl }⟩
    · obtain ⟨hsafe, hvalue⟩ := be32_of_start (n := n) hholds h₂.2.2
      rw [safe_bind, value_bind, hvalue]
      exact ⟨⟨hsafe, safe_pure _⟩, { h with sizeCells := rfl }⟩
    · exact ⟨safe_pure _, { h with compat := .some hholds }⟩
    · exact ⟨safe_pure _, { h with reg := .some hholds }⟩
    · exact ⟨safe_pure _, { h with interrupts := .some hholds }⟩
    · exact ⟨safe_pure _, h⟩
  all_goals exact hstands.elim

theorem body_same (room : ℕ) {s : Devices Slice DeviceNode} {p : Devices (List UInt8) (ℕ × ℕ)} (w : Walker)
    {ev : Event} {e : Seen} (h : Same blob s p) (hstands : ev.Stands blob e) :
    (body c room s w ev).Safe blob n ∧
      Sum.LiftRel (Same blob) (fun (out : List DeviceNode) pairs => out.map DeviceNode.pair = pairs)
        ((body c room s w ev).value blob) (see (asBytes c) room p e) := by
  have hlen : s.out.length = p.out.length := by
    rw [← h.out, List.length_map]
  rw [body, see, hlen]
  by_cases hroom : room ≤ p.out.length
  · rw [if_pos hroom, if_pos hroom]
    exact ⟨safe_pure _, .inr h.out⟩
  · obtain ⟨hsafe, hsame⟩ := on_same (n := n) (c := c) h hstands
    rw [if_neg hroom, if_neg hroom, safe_bind, value_bind]
    exact ⟨⟨hsafe, safe_pure _⟩, .inl hsame⟩

/-! ## The nodes one after another -/

variable {want : List UInt8} {p : Devices (List UInt8) (ℕ × ℕ)}

/-- An event adds no more than one device. -/
theorem after_out (want : List UInt8) (p : Devices (List UInt8) (ℕ × ℕ)) (e : Seen) :
    p.out <+: (p.after want e).out ∧ (p.after want e).out.length ≤ p.out.length + 1 := by
  cases e with
  | beginNode => exact ⟨List.prefix_rfl, Nat.le_succ _⟩
  | endNode =>
    rw [after]
    split
    · exact ⟨List.prefix_append _ _, by simp⟩
    · exact ⟨List.prefix_rfl, Nat.le_succ _⟩
  | prop =>
    rw [after]
    split_ifs <;> exact ⟨List.prefix_rfl, Nat.le_succ _⟩

theorem foldl_out (es : List Seen) : ∀ {p : Devices (List UInt8) (ℕ × ℕ)},
    p.out <+: (es.foldl (after want) p).out := by
  induction es with
  | nil => exact List.prefix_rfl
  | cons e es ih => exact (after_out want _ e).1.trans ih

/-- The test for room keeps what there is room for. -/
theorem comesTo_see (es : List Seen) : ∀ {p : Devices (List UInt8) (ℕ × ℕ)}, p.out.length ≤ room →
    comesTo (see want room) out p es = (es.foldl (after want) p).out.take room := by
  induction es with
  | nil =>
    intro p hroom
    exact (List.take_of_length_le hroom).symm
  | cons e es ih =>
    intro p hroom
    rw [comesTo, see]
    by_cases hfull : room ≤ p.out.length
    · rw [if_pos hfull]
      have hprefix : p.out <+: ((e :: es).foldl (after want) p).out := foldl_out _
      have htake := List.prefix_iff_eq_take.mp hprefix
      rwa [Nat.le_antisymm hroom hfull] at htake
    · rw [if_neg hfull]
      have hgrow := (after_out want p e).2
      exact ih (by omega)

theorem after_compat (depth : ℕ) (x : String × List UInt8) : (p.after want (.prop depth x.1 x.2)).compat =
    if x.1 = "compatible" then some x.2 else p.compat := by
  rw [after]
  split_ifs <;> simp_all

theorem after_reg (depth : ℕ) (x : String × List UInt8) : (p.after want (.prop depth x.1 x.2)).reg =
    if x.1 = "reg" then some x.2 else p.reg := by
  rw [after]
  split_ifs <;> simp_all

theorem after_addrCells (depth : ℕ) (x : String × List UInt8) :
    (p.after want (.prop depth x.1 x.2)).addrCells =
      if x.1 = "#address-cells" then (rootCells depth x.2).getD p.addrCells else p.addrCells := by
  rw [after, rootCells, cellsOf]
  split_ifs <;> simp_all

theorem after_sizeCells (depth : ℕ) (x : String × List UInt8) :
    (p.after want (.prop depth x.1 x.2)).sizeCells =
      if x.1 = "#size-cells" then (rootCells depth x.2).getD p.sizeCells else p.sizeCells := by
  rw [after, rootCells, cellsOf]
  split_ifs <;> simp_all

theorem after_prop_out (depth : ℕ) (x : String × List UInt8) :
    (p.after want (.prop depth x.1 x.2)).out = p.out := by
  rw [after]
  split_ifs <;> rfl

/-- The variables behind all properties of a node. -/
theorem foldl_props (want : List UInt8) (depth : ℕ) {props : List (String × List UInt8)}
    (hunique : (props.map Prod.fst).Nodup) (p : Devices (List UInt8) (ℕ × ℕ)) :
    let q := (props.map fun x => Seen.prop depth x.1 x.2).foldl (after want) p
    q.compat = (props.lookup "compatible").or p.compat ∧ q.reg = (props.lookup "reg").or p.reg ∧
      q.addrCells = ((props.lookup "#address-cells").bind (rootCells depth)).getD p.addrCells ∧
      q.sizeCells = ((props.lookup "#size-cells").bind (rootCells depth)).getD p.sizeCells ∧
      q.out = p.out := by
  intro q
  have hq : q = props.foldl (fun p x => p.after want (.prop depth x.1 x.2)) p := List.foldl_map
  have hout : ∀ (props : List (String × List UInt8)) (p : Devices (List UInt8) (ℕ × ℕ)),
      (props.foldl (fun p x => p.after want (.prop depth x.1 x.2)) p).out = p.out := by
    intro props
    induction props with
    | nil => exact fun _ => rfl
    | cons x props ih => exact fun p => (ih _).trans (after_prop_out depth x)
  rw [hq]
  exact ⟨foldl_lookup_some (fun _ x => after_compat depth x) props hunique,
    foldl_lookup_some (fun _ x => after_reg depth x) props hunique,
    foldl_lookup (fun _ x => after_addrCells depth x) props hunique,
    foldl_lookup (fun _ x => after_sizeCells depth x) props hunique, hout props p⟩

/-- What the variables would give at an `EndNode`. -/
def pending (want : List UInt8) (p : Devices (List UInt8) (ℕ × ℕ)) : Option (ℕ × ℕ) :=
  (regOf want p.compat p.reg).bind (firstPair p.addrCells p.sizeCells)

theorem after_endNode_of_none (h : p.pending want = none) : p.after want .endNode = p := by
  rw [pending] at h
  rw [after, h]

theorem after_endNode (want : List UInt8) (p : Devices (List UInt8) (ℕ × ℕ)) :
    let q := p.after want .endNode
    q.addrCells = p.addrCells ∧ q.sizeCells = p.sizeCells ∧
      q.out = p.out ++ ((p.pending want).map cut).toList ∧ q.pending want = none := by
  cases h : p.pending want with
  | none =>
    rw [after_endNode_of_none h]
    exact ⟨rfl, rfl, (List.append_nil _).symm, h⟩
  | some pair =>
    rw [pending] at h
    rw [after, h]
    exact ⟨rfl, rfl, rfl, rfl⟩

/-- A node with what is below it, of which `hchildren` says the same. -/
theorem foldl_node {a z depth : ℕ} (name : String) {props : List (String × List UInt8)} {children : Nodes}
    (hunique : (props.map Prod.fst).Nodup)
    (haddr : ((props.lookup "#address-cells").bind (rootCells depth)).getD p.addrCells = a)
    (hsize : ((props.lookup "#size-cells").bind (rootCells depth)).getD p.sizeCells = z)
    (hchildren : ∀ p : Devices (List UInt8) (ℕ × ℕ),
      let q := (children.events (depth + 1)).foldl (after want) p
      q.addrCells = p.addrCells ∧ q.sizeCells = p.sizeCells ∧
        q.out = p.out ++ children.flat.filterMap (Node.found want p.addrCells p.sizeCells) ∧
        if children.isNil then q = p else q.pending want = none) :
    let q := (Nodes.events depth (.node name props children .nil)).foldl (after want) p
    q.addrCells = a ∧ q.sizeCells = z ∧
      q.out = p.out ++ (⟨props, children.isNil⟩ :: children.flat).filterMap (Node.found want a z) ∧
      q.pending want = none := by
  obtain ⟨hcompat, hreg, haddr', hsize', hout⟩ := foldl_props want depth hunique p.forget
  have hevents : Nodes.events depth (.node name props children .nil) = .beginNode depth name ::
      (props.map (fun x => .prop depth x.1 x.2) ++ (children.events (depth + 1) ++ [.endNode])) := by
    rw [Nodes.events, Nodes.events, List.append_assoc, List.cons_append]
  simp only [hevents, List.foldl_cons, List.foldl_append, List.foldl_nil]
  rw [show p.after want (.beginNode depth name) = p.forget from rfl]
  generalize (props.map fun x => Seen.prop depth x.1 x.2).foldl (after want) p.forget = r at *
  have haddr' : r.addrCells = a := haddr'.trans haddr
  have hsize' : r.sizeCells = z := hsize'.trans hsize
  have hout : r.out = p.out := hout
  have hpending : r.pending want = (⟨props, children.isNil⟩ : Node).device want a z := by
    have hcompat : r.compat = props.lookup "compatible" := hcompat.trans (Option.or_none)
    have hreg : r.reg = props.lookup "reg" := hreg.trans (Option.or_none)
    rw [pending, hcompat, hreg, haddr', hsize', Node.device, regFor]
  obtain ⟨hbelowAddr, hbelowSize, hbelowOut, hbelow⟩ := hchildren r
  generalize (children.events (depth + 1)).foldl (after want) r = u at *
  obtain ⟨hendAddr, hendSize, hendOut, hend⟩ := after_endNode want u
  rw [haddr', hsize', hout] at hbelowOut
  refine ⟨by rw [hendAddr, hbelowAddr, haddr'], by rw [hendSize, hbelowSize, hsize'], ?_, hend⟩
  rw [hendOut, hbelowOut, List.filterMap_cons, Node.found]
  cases hnil : children.isNil with
  | true =>
    rw [hnil] at hbelow hpending
    obtain rfl : u = r := hbelow
    obtain rfl := Nodes.eq_nil hnil
    rw [hpending, if_pos rfl, Nodes.flat, List.filterMap_nil, List.append_nil]
    cases (⟨props, true⟩ : Node).device want a z with
    | none => rfl
    | some pair => rfl
  | false =>
    rw [hnil] at hbelow
    have hbelow : u.pending want = none := hbelow
    rw [hbelow]
    exact List.append_nil _

/-- The nodes one after another: what is found of each. -/
theorem foldl_nodes (nodes : Nodes) : ∀ {depth : ℕ} (p : Devices (List UInt8) (ℕ × ℕ)), 2 ≤ depth →
    (∀ node ∈ nodes.flat, (node.props.map Prod.fst).Nodup) →
    let q := (nodes.events depth).foldl (after want) p
    q.addrCells = p.addrCells ∧ q.sizeCells = p.sizeCells ∧
      q.out = p.out ++ nodes.flat.filterMap (Node.found want p.addrCells p.sizeCells) ∧
      if nodes.isNil then q = p else q.pending want = none := by
  induction nodes with
  | nil => exact fun p _ _ => ⟨rfl, rfl, (List.append_nil _).symm, rfl⟩
  | node name props children next ihc ihn =>
    intro depth p hdepth hunique
    obtain ⟨hprops, hbelow⟩ := List.forall_mem_cons.mp hunique
    obtain ⟨hchildren, hnext⟩ := List.forall_mem_append.mp hbelow
    obtain ⟨haddr, hsize, hout, hpending⟩ := foldl_node (p := p) name hprops (rootCells_below hdepth _ _)
      (rootCells_below hdepth _ _) fun p => ihc p (by omega) hchildren
    have hevents : Nodes.events depth (.node name props children next) =
        Nodes.events depth (.node name props children .nil) ++ next.events depth := by
      simp only [Nodes.events, List.append_assoc, List.cons_append, List.nil_append]
    rw [hevents, List.foldl_append]
    generalize (Nodes.events depth (.node name props children .nil)).foldl (after want) p = r at *
    obtain ⟨hnextAddr, hnextSize, hnextOut, hidle⟩ := ihn r hdepth hnext
    rw [haddr, hsize, hout, List.append_assoc, ← List.filterMap_append] at hnextOut
    refine ⟨hnextAddr.trans haddr, hnextSize.trans hsize, hnextOut, ?_⟩
    rw [Nodes.isNil, if_neg Bool.false_ne_true]
    split at hidle
    · rwa [hidle]
    · exact hidle

/-- What is found in a tree. -/
theorem foldl_events {t : Tree} {a z : ℕ} (h : t.WellFormed a z) :
    (t.events.foldl (after want) new).out = t.flat.filterMap (Node.found want a z) := by
  obtain ⟨hprops, hbelow⟩ := List.forall_mem_cons.mp h.unique
  obtain ⟨hchildren, -⟩ := List.forall_mem_append.mp hbelow
  have haddr : ((t.props.lookup "#address-cells").bind (rootCells 1)).getD 2 = a := by
    rw [h.addrCells, Option.bind_some, rootCells, if_pos rfl, cellsOf_beList h.addrLt]
    rfl
  have hsize : ((t.props.lookup "#size-cells").bind (rootCells 1)).getD 2 = z := by
    rw [h.sizeCells, Option.bind_some, rootCells, if_pos rfl, cellsOf_beList h.sizeLt]
    rfl
  obtain ⟨-, -, hout, -⟩ := foldl_node (p := new) t.name hprops haddr hsize
    fun p => foldl_nodes t.children p le_rfl hchildren
  rw [Tree.flat, Tree.nodes, Nodes.flat, Nodes.flat, List.append_nil]
  exact hout

end

end Devices

/-! ## `node_regs` -/

namespace NodeRegs

/-- What an event makes of the variables. -/
def set (p : NodeRegs (List UInt8)) : Seen → NodeRegs (List UInt8)
  | .beginNode _ _ => { p with curCompat := none, curReg := none }
  | .prop depth name value =>
    if depth = 1 ∧ name = "#address-cells" ∧ 4 ≤ value.length then
      { p with addrCells := ofBE (value.take 4) }
    else if depth = 1 ∧ name = "#size-cells" ∧ 4 ≤ value.length then
      { p with sizeCells := ofBE (value.take 4) }
    else if name = "compatible" then { p with curCompat := some value }
    else if name = "reg" then { p with curReg := some value }
    else p
  | .endNode => p

/-- The first pair, if there is one, once the current node has turned out to be compatible. -/
def held (want : List UInt8) (p : NodeRegs (List UInt8)) : Option (Option (ℕ × ℕ)) :=
  (regOf want p.curCompat p.curReg).map (firstPair p.addrCells p.sizeCells)

/-- Properties are followed by the check. -/
def hit (want : List UInt8) (p : NodeRegs (List UInt8)) : Seen → Option (Option (ℕ × ℕ))
  | .prop .. => p.held want
  | _ => none

/-- The body. -/
def see (want : List UInt8) (p : NodeRegs (List UInt8)) (e : Seen) :
    NodeRegs (List UInt8) ⊕ Option (Option (ℕ × ℕ)) :=
  match hit want (p.set e) e with
  | some pair => .inr (some pair)
  | none => .inl (p.set e)

/-- The variables hold the same, and the current node has not been compatible. -/
structure Same (blob want : List UInt8) (s : NodeRegs Slice) (p : NodeRegs (List UInt8)) : Prop where
  addrCells : s.addrCells = p.addrCells
  sizeCells : s.sizeCells = p.sizeCells
  curCompat : Option.Rel (Slice.Holds blob) s.curCompat p.curCompat
  curReg : Option.Rel (Slice.Holds blob) s.curReg p.curReg
  unmatched : regOf want p.curCompat p.curReg = none

/-- `out` begins with the pair, cut to what a `u64` holds, if there is room for it. -/
def Begins (room : ℕ) (out : List (ℕ × ℕ)) (pair : Option (Option (ℕ × ℕ))) : Prop :=
  out.head? = if room = 0 then none else pair.join.map cut

section

variable {blob bytes want : List UInt8} {n : ℕ} {c : String} {room : ℕ}

theorem pairs_safe {r : Slice} {a z : ℕ} (h : r.Holds blob bytes) (room : ℕ) : ∀ offset : ℕ,
    (pairs r a z room offset).Safe blob n := by
  induction room with
  | zero => exact fun _ => safe_pure _
  | succ room ih =>
    intro offset
    rw [pairs, h.2, safe_ite]
    refine ⟨fun hlen => ?_, fun _ => safe_pure _⟩
    obtain ⟨hbase, -⟩ := readCells_of_holds (n := n) h (show offset + a * 4 ≤ bytes.length by omega)
    obtain ⟨hsize, -⟩ := readCells_of_holds (n := n) h (show offset + a * 4 + z * 4 ≤ bytes.length by omega)
    rw [safe_bind, safe_bind, safe_bind]
    exact ⟨hbase, hsize, ih _, safe_pure _⟩

theorem pairs_begins {r : Slice} {a z : ℕ} (h : r.Holds blob bytes) (room : ℕ) :
    Begins room ((pairs r a z room 0).value blob) (some (firstPair a z bytes)) := by
  cases room with
  | zero => rfl
  | succ room =>
    rw [Begins, pairs, h.2, Nat.zero_add, value_ite, if_neg (Nat.succ_ne_zero room), firstPair]
    by_cases hlen : (a + z) * 4 ≤ bytes.length
    · obtain ⟨-, hbase⟩ := readCells_of_holds (n := 0) h (show 0 + a * 4 ≤ bytes.length by omega)
      obtain ⟨-, hsize⟩ := readCells_of_holds (n := 0) h (show a * 4 + z * 4 ≤ bytes.length by omega)
      rw [if_pos hlen, if_pos hlen, value_bind, hbase, value_bind, Nat.zero_add, hsize, value_bind]
      rfl
    · rw [if_neg hlen, if_neg hlen]
      rfl

/-- The check, with the bytes in hand. -/
theorem look_same {a z : ℕ} {compat reg : Option Slice} {compat' reg' : Option (List UInt8)}
    (hcompat : Option.Rel (Slice.Holds blob) compat compat') (hreg : Option.Rel (Slice.Holds blob) reg reg')
    (depth : ℕ) (name : String) (value : List UInt8) :
    (look c room ⟨a, z, compat, reg⟩).Safe blob n ∧
      Sum.LiftRel (Same blob (asBytes c)) (Begins room) ((look c room ⟨a, z, compat, reg⟩).value blob)
        (match hit (asBytes c) ⟨a, z, compat', reg'⟩ (.prop depth name value) with
        | some pair => .inr (some pair)
        | none => .inl ⟨a, z, compat', reg'⟩) := by
  have hsame (hnone : regOf (asBytes c) compat' reg' = none) :
      Same blob (asBytes c) ⟨a, z, compat, reg⟩ ⟨a, z, compat', reg'⟩ := ⟨rfl, rfl, hcompat, hreg, hnone⟩
  cases hcompat with
  | none => exact ⟨safe_pure _, .inl (hsame rfl)⟩
  | @some v bytes hv =>
    cases hreg with
    | none => exact ⟨safe_pure _, .inl (hsame rfl)⟩
    | @some r reg hr =>
      obtain ⟨hsafe, hvalue⟩ := compatMatches_of_holds (n := n) c hv
      rw [look, safe_bind, value_bind, and_iff_right hsafe]
      by_cases hfound : asBytes c ∈ bytes.splitOn 0
      · rw [hvalue.mpr hfound, if_pos rfl, safe_bind, value_bind, hit, held, regOf, if_pos hfound]
        exact ⟨⟨pairs_safe hr room 0, safe_pure _⟩, .inr (pairs_begins hr room)⟩
      · have hnot : (compatMatches v c).value blob = false := by
          rw [← Bool.not_eq_true, hvalue]
          exact hfound
        have hnone : regOf (asBytes c) (some bytes) (some reg) = none := if_neg hfound
        rw [hnot, if_neg Bool.false_ne_true, hit, held, hnone]
        exact ⟨safe_pure _, .inl (hsame hnone)⟩

theorem body_same (room : ℕ) {s : NodeRegs Slice} {p : NodeRegs (List UInt8)} (w : Walker) {ev : Event}
    {e : Seen} (h : Same blob (asBytes c) s p) (hstands : ev.Stands blob e) :
    (body c room s w ev).Safe blob n ∧ Sum.LiftRel (Same blob (asBytes c)) (Begins room)
      ((body c room s w ev).value blob) (see (asBytes c) p e) := by
  obtain ⟨a, z, compat, reg⟩ := s
  obtain ⟨a', z', compat', reg'⟩ := p
  obtain ⟨rfl, rfl, hcompat, hreg, hnone⟩ := h
  have hnone : regOf (asBytes c) compat' reg' = none := hnone
  cases ev <;> cases e
  case beginNode.beginNode => exact ⟨safe_pure _, .inl ⟨rfl, rfl, .none, .none, rfl⟩⟩
  case endNode.endNode => exact ⟨safe_pure _, .inl ⟨rfl, rfl, hcompat, hreg, hnone⟩⟩
  case prop.prop depth name value depth' name' bytes =>
    obtain ⟨rfl, rfl, hholds⟩ := hstands
    rw [body, see, set, hholds.2]
    split_ifs with h₁ h₂ h₃ h₄
    · obtain ⟨hsafe, hvalue⟩ := be32_of_start (n := n) hholds h₁.2.2
      rw [safe_bind, value_bind, hvalue, hit, held, hnone]
      exact ⟨⟨hsafe, safe_pure _⟩, .inl ⟨rfl, rfl, hcompat, hreg, hnone⟩⟩
    · obtain ⟨hsafe, hvalue⟩ := be32_of_start (n := n) hholds h₂.2.2
      rw [safe_bind, value_bind, hvalue, hit, held, hnone]
      exact ⟨⟨hsafe, safe_pure _⟩, .inl ⟨rfl, rfl, hcompat, hreg, hnone⟩⟩
    · exact look_same (.some hholds) hreg depth name bytes
    · exact look_same hcompat (.some hholds) depth name bytes
    · exact look_same hcompat hreg depth name bytes
  all_goals exact hstands.elim

variable {p : NodeRegs (List UInt8)}

/-! ### Properties one after another -/

theorem set_curCompat (depth : ℕ) (x : String × List UInt8) : (p.set (.prop depth x.1 x.2)).curCompat =
    if x.1 = "compatible" then some x.2 else p.curCompat := by
  rw [set]
  split_ifs <;> simp_all

theorem set_curReg (depth : ℕ) (x : String × List UInt8) : (p.set (.prop depth x.1 x.2)).curReg =
    if x.1 = "reg" then some x.2 else p.curReg := by
  rw [set]
  split_ifs <;> simp_all

theorem set_addrCells (depth : ℕ) (x : String × List UInt8) : (p.set (.prop depth x.1 x.2)).addrCells =
    if x.1 = "#address-cells" then (rootCells depth x.2).getD p.addrCells else p.addrCells := by
  rw [set, rootCells, cellsOf]
  split_ifs <;> simp_all

theorem set_sizeCells (depth : ℕ) (x : String × List UInt8) : (p.set (.prop depth x.1 x.2)).sizeCells =
    if x.1 = "#size-cells" then (rootCells depth x.2).getD p.sizeCells else p.sizeCells := by
  rw [set, rootCells, cellsOf]
  split_ifs <;> simp_all

/-- What the check says behind properties of a node. -/
theorem held_foldl (depth : ℕ) {props : List (String × List UInt8)} (hunique : (props.map Prod.fst).Nodup)
    {p : NodeRegs (List UInt8)} (hcompat : p.curCompat = none) (hreg : p.curReg = none) :
    (props.foldl (fun p x => p.set (.prop depth x.1 x.2)) p).held want =
      (regFor want props).map (firstPair
        (((props.lookup "#address-cells").bind (rootCells depth)).getD p.addrCells)
        (((props.lookup "#size-cells").bind (rootCells depth)).getD p.sizeCells)) := by
  rw [held, foldl_lookup_some (g := curCompat) (fun _ x => set_curCompat depth x) props hunique,
    foldl_lookup_some (g := curReg) (fun _ x => set_curReg depth x) props hunique,
    foldl_lookup (g := addrCells) (fun _ x => set_addrCells depth x) props hunique,
    foldl_lookup (g := sizeCells) (fun _ x => set_sizeCells depth x) props hunique, hcompat, hreg,
    Option.or_none, Option.or_none, regFor]

/-! ### The first node -/

/-- The first hit among the events. -/
def first (want : List UInt8) (p : NodeRegs (List UInt8)) (es : List Seen) : Option (Option (ℕ × ℕ)) :=
  comesTo (see want) (fun _ => none) p es

theorem first_cons (e : Seen) (es : List Seen) :
    first want p (e :: es) = (hit want (p.set e) e).or (first want (p.set e) es) := by
  rw [first, comesTo, see]
  cases hit want (p.set e) e <;> rfl

theorem first_append (es es' : List Seen) : ∀ {p : NodeRegs (List UInt8)},
    first want p (es ++ es') = (first want p es).or (first want (es.foldl set p) es') := by
  induction es with
  | nil => exact fun {_} => rfl
  | cons e es ih =>
    intro p
    rw [List.cons_append, first_cons, ih, first_cons, Option.or_assoc, List.foldl_cons]

/-- Among the properties of a node, what the check says after some of them. -/
theorem first_props (depth : ℕ) (props : List (String × List UInt8)) : ∀ {p : NodeRegs (List UInt8)},
    p.held want = none → first want p (props.map fun x => .prop depth x.1 x.2) =
      props.inits.findSome? fun init =>
        (init.foldl (fun p x => p.set (.prop depth x.1 x.2)) p).held want := by
  induction props with
  | nil =>
    intro p hp
    rw [List.inits, List.findSome?_singleton, List.foldl_nil, hp]
    rfl
  | cons x props ih =>
    intro p hp
    rw [List.map_cons, first_cons, hit, List.inits_cons, List.findSome?_cons, List.foldl_nil, hp,
      List.findSome?_map]
    cases hx : (p.set (.prop depth x.1 x.2)).held want with
    | none => exact ih hx
    | some pair =>
      have hfirst : ∃ more, props.inits = [] :: more := by
        cases props with
        | nil => exact ⟨_, rfl⟩
        | cons y props => exact ⟨_, List.inits_cons y props⟩
      obtain ⟨more, hmore⟩ := hfirst
      rw [hmore, List.findSome?_cons]
      simp only [Function.comp_apply, List.foldl_cons, List.foldl_nil, hx]
      rfl

/-- A node below the root is found exactly if it is compatible and has a `reg`. -/
theorem first_props_below (want : List UInt8) {depth : ℕ} (hdepth : 2 ≤ depth)
    {props : List (String × List UInt8)} (hunique : (props.map Prod.fst).Nodup)
    {p : NodeRegs (List UInt8)} (hcompat : p.curCompat = none)
    (hreg : p.curReg = none) : first want p (props.map fun x => .prop depth x.1 x.2) =
      (regFor want props).map (firstPair p.addrCells p.sizeCells) := by
  have hheld : p.held want = none := by
    rw [held, hcompat, hreg]
    rfl
  have hinit : ∀ init, init <+: props →
      (init.foldl (fun p x => p.set (.prop depth x.1 x.2)) p).held want =
        (regFor want init).map (firstPair p.addrCells p.sizeCells) := by
    intro init h
    have hinitUnique : (init.map Prod.fst).Nodup := hunique.sublist (List.Sublist.map _ h.sublist)
    rw [held_foldl depth hinitUnique hcompat hreg, rootCells_below hdepth, rootCells_below hdepth]
  rw [first_props depth props hheld, findSome?_inits, hinit props List.prefix_rfl]
  intro init h
  rw [hinit init h, hinit props List.prefix_rfl]
  obtain hnone | hsame := regFor_prefix want h
  · exact Or.inl (by rw [hnone]; rfl)
  · exact Or.inr (by rw [hsame])

/-- The nodes one after another: the first one that is compatible and has a `reg`. -/
theorem first_nodes (want : List UInt8) (nodes : Nodes) : ∀ {depth : ℕ} (p : NodeRegs (List UInt8)),
    2 ≤ depth → (∀ node ∈ nodes.flat, (node.props.map Prod.fst).Nodup) →
    let q := (nodes.events depth).foldl set p
    q.addrCells = p.addrCells ∧ q.sizeCells = p.sizeCells ∧ first want p (nodes.events depth) =
      nodes.flat.findSome? fun node => (regFor want node.props).map (firstPair p.addrCells p.sizeCells) := by
  induction nodes with
  | nil => exact fun p _ _ => ⟨rfl, rfl, rfl⟩
  | node name props children next ihc ihn =>
    intro depth p hdepth hunique
    obtain ⟨hprops, hbelow⟩ := List.forall_mem_cons.mp hunique
    obtain ⟨hchildren, hnext⟩ := List.forall_mem_append.mp hbelow
    have hevents : Nodes.events depth (.node name props children next) = .beginNode depth name ::
        (props.map (fun x => .prop depth x.1 x.2) ++
          (children.events (depth + 1) ++ .endNode :: next.events depth)) := by
      rw [Nodes.events, List.append_assoc, List.cons_append]
    have hfirst := first_props_below want hdepth hprops
      (rfl : (p.set (.beginNode depth name)).curCompat = none) rfl
    have haddr := foldl_lookup (g := addrCells) (fun _ x => set_addrCells depth x) props hprops
      (p := p.set (.beginNode depth name))
    have hsize := foldl_lookup (g := sizeCells) (fun _ x => set_sizeCells depth x) props hprops
      (p := p.set (.beginNode depth name))
    rw [rootCells_below hdepth] at haddr hsize
    simp only [hevents, List.foldl_cons, List.foldl_append, first_cons, first_append, List.foldl_map,
      hfirst, hit, Option.none_or]
    generalize props.foldl (fun p x => p.set (.prop depth x.1 x.2)) (p.set (.beginNode depth name)) = r at *
    obtain ⟨hbelowAddr, hbelowSize, hbelow⟩ := ihc r (show 2 ≤ depth + 1 by omega) hchildren
    generalize (children.events (depth + 1)).foldl set r = u at *
    obtain ⟨hnextAddr, hnextSize, hnext⟩ := ihn u hdepth hnext
    rw [hbelowAddr, haddr] at hnextAddr hnext
    rw [hbelowSize, hsize] at hnextSize hnext
    rw [haddr, hsize] at hbelow
    refine ⟨hnextAddr, hnextSize, ?_⟩
    rw [hbelow, show u.set .endNode = u from rfl, hnext, Nodes.flat, List.cons_append, List.findSome?_cons,
      List.findSome?_append]
    cases regFor want props with
    | none => rfl
    | some reg => rfl

/-- What is found in a tree: the root first, with the cells that have been declared by then. -/
theorem first_events {t : Tree} {a z : ℕ} (h : t.WellFormed a z) :
    first want new t.events = (t.rootHit want).or
      (t.children.flat.findSome? fun node => (regFor want node.props).map (firstPair a z)) := by
  obtain ⟨hprops, hbelow⟩ := List.forall_mem_cons.mp h.unique
  obtain ⟨hchildren, -⟩ := List.forall_mem_append.mp hbelow
  have hprops : (t.props.map Prod.fst).Nodup := hprops
  have hroot : first want new (t.props.map fun x => .prop 1 x.1 x.2) = t.rootHit want := by
    rw [first_props 1 t.props rfl, Tree.rootHit]
    refine findSome?_congr fun init hinit => ?_
    have hprefix := (List.mem_inits init t.props).mp hinit
    exact held_foldl 1 (hprops.sublist (List.Sublist.map _ hprefix.sublist)) rfl rfl
  have hevents : t.events = .beginNode 1 t.name :: (t.props.map (fun x => .prop 1 x.1 x.2) ++
      (t.children.events 2 ++ [.endNode])) := by
    rw [Tree.events, Tree.nodes, Nodes.events, Nodes.events, List.append_assoc, List.cons_append]
  have haddr := foldl_lookup (g := addrCells) (fun _ x => set_addrCells 1 x) t.props hprops (p := new)
  have hsize := foldl_lookup (g := sizeCells) (fun _ x => set_sizeCells 1 x) t.props hprops (p := new)
  rw [h.addrCells, Option.bind_some, rootCells, if_pos rfl, cellsOf_beList h.addrLt] at haddr
  rw [h.sizeCells, Option.bind_some, rootCells, if_pos rfl, cellsOf_beList h.sizeLt] at hsize
  rw [hevents, first_cons, first_append, first_append, show new.set (.beginNode 1 t.name) = new from rfl,
    hroot, List.foldl_map]
  obtain ⟨-, -, hbelow⟩ := first_nodes want t.children
    (t.props.foldl (fun p x => p.set (.prop 1 x.1 x.2)) new) le_rfl hchildren
  have hend (p : NodeRegs (List UInt8)) : first want p [.endNode] = none := rfl
  rw [hbelow, haddr, hsize, hend, Option.or_none]
  rfl

end

end NodeRegs

section

variable {t : Tree} {blob strings : List UInt8} {tokens : List Token} {structOff stringsOff a s : ℕ}

/-- `devices` gives what it finds of each node, as far as there is room. -/
theorem devices_flattening (h : Flattens t blob tokens strings structOff stringsOff) (hwf : t.WellFormed a s)
    (c : String) (room : ℕ) (rest : List UInt8) :
    ∃ out, ((h.fdt.devices c room).run (blob ++ rest)).2 = some out ∧
      out.map DeviceNode.pair =
        (t.flat.filterMap (Node.found (asBytes c) a s)).take room := by
  obtain ⟨evs, hyields, hall⟩ := yields_flattens (n := (blob ++ rest).length) h hwf.nulFree
  obtain ⟨hsafe, hout⟩ := scan_of_yields (Devices.Same blob)
    (fun (out : List DeviceNode) pairs => out.map DeviceNode.pair = pairs)
    (fun _ _ w _ _ => Devices.body_same room w) (fun _ _ hsame => hsame.out) hyields
    (Nat.le_add_left _ _) hall (⟨rfl, rfl, .none, .none, .none, rfl⟩ : Devices.Same blob .new .new)
  refine ⟨_, run_of_safe hsafe, hout.trans ?_⟩
  rw [Devices.comesTo_see _ (Nat.zero_le room), Devices.foldl_events hwf]

/-- What `node_regs` returns begins with what it finds first. -/
theorem nodeRegs_flattening (h : Flattens t blob tokens strings structOff stringsOff)
    (hwf : t.WellFormed a s) (c : String) (room : ℕ) (rest : List UInt8) :
    ∃ out, ((h.fdt.nodeRegs c room).run (blob ++ rest)).2 = some out ∧
      NodeRegs.Begins room out ((t.rootHit (asBytes c)).or (t.children.flat.findSome? fun node =>
        (regFor (asBytes c) node.props).map (firstPair a s))) := by
  obtain ⟨evs, hyields, hall⟩ := yields_flattens (n := (blob ++ rest).length) h hwf.nulFree
  have hnothing : NodeRegs.Begins room [] none := by
    rw [NodeRegs.Begins]
    split_ifs <;> rfl
  obtain ⟨hsafe, hout⟩ := scan_of_yields (NodeRegs.Same blob (asBytes c)) (NodeRegs.Begins room)
    (fun _ _ w _ _ => NodeRegs.body_same room w) (fun _ _ _ => hnothing) hyields (Nat.le_add_left _ _) hall
    (⟨rfl, rfl, .none, .none, rfl⟩ : NodeRegs.Same blob (asBytes c) .new .new)
  refine ⟨_, run_of_safe hsafe, ?_⟩
  rw [← NodeRegs.first_events hwf]
  exact hout

/-! ## The condition -/

/-- `devices` lists the nodes that have the string, and what `node_regs` returns first is one of them. -/
def Listed (t : Tree) (c : String) (a s : ℕ) (f : Fdt) (mem : List UInt8) : Prop :=
  (∀ room, (t.pairs c a s).length ≤ room → ∃ out, ((f.devices c room).run mem).2 = some out ∧
    out.map DeviceNode.pair = t.pairs c a s) ∧
  ∀ room out p, ((f.nodeRegs c room).run mem).2 = some out → out.head? = some p → p ∈ t.pairs c a s

theorem cut_eq_iff (p : ℕ × ℕ) : cut p = p ↔ p.1 < 2 ^ 64 ∧ p.2 < 2 ^ 64 := by
  rw [cut, Prod.ext_iff]
  constructor
  · rintro ⟨hbase, hsize⟩
    exact ⟨hbase ▸ Nat.mod_lt _ (by decide), hsize ▸ Nat.mod_lt _ (by decide)⟩
  · rintro ⟨hbase, hsize⟩
    exact ⟨Nat.mod_eq_of_lt hbase, Nat.mod_eq_of_lt hsize⟩

theorem found_eq_device_iff {want : List UInt8} {node : Node} :
    node.found want a s = node.device want a s ↔
      ∀ p, node.device want a s = some p → node.leaf ∧ p.1 < 2 ^ 64 ∧ p.2 < 2 ^ 64 := by
  rw [Node.found]
  cases hdevice : node.device want a s with
  | none => simp
  | some p =>
    cases hleaf : node.leaf with
    | false => simp
    | true => simp [cut_eq_iff]

theorem length_filterMap_found (want : List UInt8) (nodes : List Node) :
    (nodes.filterMap (Node.found want a s)).length ≤ (nodes.filterMap (Node.device want a s)).length := by
  induction nodes with
  | nil => exact le_rfl
  | cons node nodes ih =>
    rw [List.filterMap_cons, List.filterMap_cons, Node.found]
    cases node.device want a s with
    | none => simpa using ih
    | some p =>
      by_cases hleaf : node.leaf
      · rw [if_pos hleaf]
        exact Nat.succ_le_succ ih
      · rw [if_neg hleaf]
        exact Nat.le_succ_of_le ih

/-- Nothing is missing and nothing is cut exactly if that is so for each node. -/
theorem filterMap_found_iff {want : List UInt8} (nodes : List Node) :
    nodes.filterMap (Node.found want a s) = nodes.filterMap (Node.device want a s) ↔
      ∀ node ∈ nodes, node.found want a s = node.device want a s := by
  induction nodes with
  | nil => simp
  | cons node nodes ih =>
    rw [List.forall_mem_cons, ← ih, List.filterMap_cons, List.filterMap_cons, Node.found]
    cases node.device want a s with
    | none => simp
    | some p =>
      by_cases hleaf : node.leaf
      · rw [if_pos hleaf, Option.map_some, List.cons.injEq, Option.some_inj]
      · have hlen := length_filterMap_found (a := a) (s := s) want nodes
        rw [if_neg hleaf]
        refine iff_of_false (fun heq => ?_) nofun
        have heq : nodes.filterMap (Node.found want a s) = p :: nodes.filterMap (Node.device want a s) := heq
        rw [heq, List.length_cons] at hlen
        exact Nat.not_succ_le_self _ hlen

/-- They do exactly if no node that is to be listed has nodes below it or numbers of more than 64 bits, and
if the root, should it be found before its cells are declared, is found at the address of one of them. -/
theorem listed_iff (h : Flattens t blob tokens strings structOff stringsOff) (hwf : t.WellFormed a s)
    {addr : ℕ} (haddr : addr ≠ 0) (halign : addr &&& 7 = 0) (c : String) (rest : List UInt8) :
    ∃ f, ((Fdt.new addr).run (blob ++ rest)).2 = some (some f) ∧
      (Listed t c a s f (blob ++ rest) ↔
        (∀ node ∈ t.flat, ∀ p, node.device (asBytes c) a s = some p →
          node.leaf ∧ p.1 < 2 ^ 64 ∧ p.2 < 2 ^ 64) ∧
        ∀ p, (t.rootHit (asBytes c)).join = some p → cut p ∈ t.pairs c a s) := by
  obtain ⟨hsafe, hvalue⟩ := new_flattens (n := (blob ++ rest).length) h haddr halign
  refine ⟨h.fdt, by rw [run_of_safe hsafe, hvalue], ?_⟩
  simp only [← found_eq_device_iff]
  rw [← filterMap_found_iff]
  have hlen := length_filterMap_found (a := a) (s := s) (asBytes c) t.flat
  constructor
  · rintro ⟨hdevices, hregs⟩
    constructor
    · obtain ⟨out, hrun, hout⟩ := hdevices _ le_rfl
      obtain ⟨out', hrun', hout'⟩ := devices_flattening h hwf c (t.pairs c a s).length rest
      rw [hrun, Option.some_inj] at hrun'
      rw [← hrun', hout, Tree.pairs, List.take_of_length_le hlen] at hout'
      exact hout'.symm
    · intro p hroot
      obtain ⟨out, hrun, hout⟩ := nodeRegs_flattening h hwf c 1 rest
      refine hregs 1 out (cut p) hrun (hout.trans ?_)
      rw [Option.join_eq_some_iff.mp hroot]
      rfl
  · rintro ⟨hfound, hroot⟩
    constructor
    · intro room hroom
      obtain ⟨out, hrun, hout⟩ := devices_flattening h hwf c room rest
      refine ⟨out, hrun, hout.trans ?_⟩
      rw [hfound]
      exact List.take_of_length_le hroom
    · intro room out p hrun hp
      obtain ⟨out', hrun', hout⟩ := nodeRegs_flattening h hwf c room rest
      rw [hrun, Option.some_inj] at hrun'
      rw [← hrun', NodeRegs.Begins, hp] at hout
      have hroom : room ≠ 0 := fun hzero => by
        rw [if_pos hzero] at hout
        cases hout
      rw [if_neg hroom] at hout
      obtain ⟨q, hq, rfl⟩ := Option.map_eq_some_iff.mp hout.symm
      obtain hhit | ⟨-, hhit⟩ := Option.or_eq_some_iff.mp (Option.join_eq_some_iff.mp hq)
      · exact hroot q (Option.join_eq_some_iff.mpr hhit)
      · obtain ⟨node, hmem, hnode⟩ := List.exists_of_findSome?_eq_some hhit
        obtain ⟨reg, hreg, hpair⟩ := Option.map_eq_some_iff.mp hnode
        have hdevice : node.device (asBytes c) a s = some q := by
          rw [Node.device, hreg, Option.bind_some, hpair]
        have hmem : node ∈ t.flat := List.mem_cons_of_mem _ (List.mem_append_left _ hmem)
        have hnode : node.found (asBytes c) a s = node.device (asBytes c) a s :=
          (filterMap_found_iff t.flat).mp hfound node hmem
        obtain ⟨-, hfits⟩ := found_eq_device_iff.mp hnode q hdevice
        rw [(cut_eq_iff q).mpr hfits]
        exact List.mem_filterMap.mpr ⟨node, hmem, hdevice⟩

end

namespace board

theorem wellFormed : board.WellFormed 1 1 where
  nulFree := nulFree
  unique := by decide
  addrCells := by decide
  addrLt := by decide
  sizeCells := by decide
  sizeLt := by decide

/-- The serial port has a node below it, and `devices` does not find it. -/
theorem unlisted : board.pairs "arm,pl011" 1 1 = [(0x9000000, 0x1000)] ∧
    ∃ f, ((Fdt.new 0x40000000).run (blob ++ [])).2 = some (some f) ∧
      ((f.devices "arm,pl011" 8).run (blob ++ [])).2 = some [] ∧
        ¬ Listed board "arm,pl011" 1 1 f (blob ++ []) := by
  have hpairs : board.pairs "arm,pl011" 1 1 = [(0x9000000, 0x1000)] := by decide
  have hfound : board.flat.filterMap (Node.found (asBytes "arm,pl011") 1 1) = [] := by decide
  obtain ⟨hsafe, hvalue⟩ := new_flattens (n := (blob ++ []).length) flattens (show 0x40000000 ≠ 0 by decide)
    (by decide)
  obtain ⟨out, hrun, hout⟩ := devices_flattening flattens wellFormed "arm,pl011" 8 []
  rw [hfound, List.take_nil] at hout
  obtain rfl := List.map_eq_nil_iff.mp hout
  refine ⟨hpairs, flattens.fdt, by rw [run_of_safe hsafe, hvalue], hrun, fun hlisted => ?_⟩
  obtain ⟨out, hrun', hout⟩ := hlisted.1 8 (by rw [hpairs]; decide)
  rw [hrun, Option.some_inj] at hrun'
  rw [← hrun', hpairs] at hout
  cases hout

end board

/-- The condition on that board, at 0x4000_0000. -/
theorem listed_board : ∃ f, ((Fdt.new 0x40000000).run (board.blob ++ [])).2 = some (some f) ∧
    (Listed board "arm,pl011" 1 1 f (board.blob ++ []) ↔
      (∀ node ∈ board.flat, ∀ p, node.device (asBytes "arm,pl011") 1 1 = some p →
        node.leaf ∧ p.1 < 2 ^ 64 ∧ p.2 < 2 ^ 64) ∧
      ∀ p, (board.rootHit (asBytes "arm,pl011")).join = some p → cut p ∈ board.pairs "arm,pl011" 1 1) :=
  listed_iff board.flattens board.wellFormed (by decide) (by decide) "arm,pl011" []

end JungeyOs.Dtb
