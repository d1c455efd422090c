import JungeyOs.Dtb.Walker
import Mathlib.Data.List.Forall2

/-!
# Flattened device trees

A device tree as version 17 of the format writes it: the tokens of its nodes and properties in preorder,
padded to four bytes, with `FDT_NOP` anywhere between them, and the names of the properties in a block of
strings. Of the header only what the code looks at is said; the strings may overlap.

Results:
* `yields_tokens`: the walk over the tokens, from any of them on.
* `walk_flattening`: `next_event` gives the tree back.
-/

namespace JungeyOs.Dtb

open Bytes Reads
open Jlfs (asBytes)

/-! ## Trees -/

/-- A node with what is below it, and the nodes beside it. -/
inductive Nodes
  | nil
  | node (name : String) (props : List (String × List UInt8)) (children next : Nodes)

/-- A device tree: its root. -/
structure Tree where
  name : String
  props : List (String × List UInt8)
  children : Nodes

/-- An event with the bytes of its value. -/
inductive Seen
  | beginNode (depth : ℕ) (name : String)
  | endNode
  | prop (depth : ℕ) (name : String) (value : List UInt8)
  deriving DecidableEq

/-- The bytes of a slice. -/
def Slice.bytes (mem : List UInt8) (s : Slice) : List UInt8 := (mem.drop s.pos).take s.len

def Event.seen (mem : List UInt8) : Event → Seen
  | .beginNode depth name => .beginNode depth name
  | .endNode => .endNode
  | .prop depth name value => .prop depth name (value.bytes mem)

/-- The nodes in preorder, of which the first is at `depth`. -/
def Nodes.events : (depth : ℕ) → Nodes → List Seen
  | _, .nil => []
  | depth, .node name props children next =>
    .beginNode depth name :: props.map (fun p => .prop depth p.1 p.2) ++
      children.events (depth + 1) ++ .endNode :: next.events depth

def Tree.nodes (t : Tree) : Nodes := .node t.name t.props t.children .nil

/-- The root is at depth 1. -/
def Tree.events (t : Tree) : List Seen := t.nodes.events 1

/-- The name has no NUL. -/
def Seen.NulFree : Seen → Prop
  | .beginNode _ name | .prop _ name _ => 0 ∉ asBytes name
  | .endNode => True

instance (e : Seen) : Decidable e.NulFree :=
  match e with
  | .beginNode _ name | .prop _ name _ => inferInstanceAs (Decidable (0 ∉ asBytes name))
  | .endNode => inferInstanceAs (Decidable True)

/-! ## Flattenings -/

/-- The tokens of the structure block but `FDT_END`. A property has the offset of its name. -/
inductive Token
  | nop
  | beginNode (name : String)
  | endNode
  | prop (nameoff : ℕ) (value : List UInt8)
  deriving DecidableEq

/-- Zeros up to a multiple of four bytes. -/
def pad (bytes : List UInt8) : List UInt8 :=
  bytes ++ List.replicate (align4 bytes.length - bytes.length) 0

def Token.bytes : Token → List UInt8
  | .nop => beList 4 FDT_NOP
  | .beginNode name => beList 4 FDT_BEGIN_NODE ++ pad (asBytes name ++ [0])
  | .endNode => beList 4 FDT_END_NODE
  | .prop nameoff value =>
    beList 4 FDT_PROP ++ (beList 4 value.length ++ beList 4 nameoff) ++ pad value

/-- The structure block. -/
def structBlock (tokens : List Token) : List UInt8 := tokens.flatMap Token.bytes ++ beList 4 FDT_END

/-- A token is written for an event; the name of a property is where the token says. -/
def Token.Writes (strings : List UInt8) : Token → Seen → Prop
  | .beginNode name, .beginNode _ name' => name = name'
  | .endNode, .endNode => True
  | .prop nameoff value, .prop _ name value' => value = value' ∧ At strings nameoff (asBytes name ++ [0])
  | _, _ => False

instance (strings : List UInt8) (token : Token) (e : Seen) : Decidable (token.Writes strings e) :=
  match token, e with
  | .beginNode name, .beginNode _ name' => inferInstanceAs (Decidable (name = name'))
  | .endNode, .endNode => inferInstanceAs (Decidable True)
  | .prop nameoff value, .prop _ name value' =>
    inferInstanceAs (Decidable (value = value' ∧ asBytes name ++ [0] <+: strings.drop nameoff))
  | .nop, _ | .beginNode _, .endNode | .beginNode _, .prop .. | .endNode, .beginNode .. |
    .endNode, .prop .. | .prop .., .beginNode .. | .prop .., .endNode => inferInstanceAs (Decidable False)

/-- `blob` is a flattening of the tree, with its blocks at `structOff` and `stringsOff`. -/
structure Flattens (t : Tree) (blob : List UInt8) (tokens : List Token) (strings : List UInt8)
    (structOff stringsOff : ℕ) : Prop where
  written : List.Forall₂ (Token.Writes strings) (tokens.filter (· ≠ .nop)) t.events
  header : At blob 0 (beList 4 FDT_MAGIC ++ beList 4 blob.length ++ beList 4 structOff ++
    beList 4 stringsOff)
  version : At blob 20 (beList 4 17)
  structSize : At blob 36 (beList 4 (structBlock tokens).length)
  structAt : At blob structOff (structBlock tokens)
  stringsAt : At blob stringsOff strings
  stringsIn : stringsOff + strings.length ≤ blob.length
  small : blob.length < 2 ^ 32

/-- From a walker on, repeated calls of `next_event` give the events and then `None`. -/
inductive Walks (f : Fdt) (mem : List UInt8) : Walker → List Event → Prop
  | done {w w' : Walker} : ((w.nextEvent f).run mem).2 = some (none, w') → Walks f mem w []
  | next {w w' : Walker} {ev : Event} {evs : List Event} :
    ((w.nextEvent f).run mem).2 = some (some ev, w') → Walks f mem w' evs → Walks f mem w (ev :: evs)

/-! ## The walk -/

section

variable {blob strings : List UInt8} {n : ℕ} {f : Fdt} {w w' : Walker} {evs : List (Event × Walker)}

/-- The walk on the blob alone: the events, each with the walker behind it. -/
inductive Yields (f : Fdt) (blob : List UInt8) (n : ℕ) : Walker → List (Event × Walker) → Prop
  | done {w : Walker} (hsafe : (w.nextEvent f).Safe blob n) (hvalue : ((w.nextEvent f).value blob).1 = none) :
    Yields f blob n w []
  | next {w w' : Walker} {ev : Event} {evs : List (Event × Walker)}
    (hsafe : (w.nextEvent f).Safe blob n) (hvalue : (w.nextEvent f).value blob = (some ev, w'))
    (hrest : Yields f blob n w' evs) : Yields f blob n w ((ev, w') :: evs)

/-- The event has the bytes, and they are in the blob. -/
def Event.Stands (blob : List UInt8) : Event → Seen → Prop
  | .beginNode depth name, .beginNode depth' name' => depth = depth' ∧ name = name'
  | .endNode, .endNode => True
  | .prop depth name value, .prop depth' name' bytes =>
    depth = depth' ∧ name = name' ∧ value.Holds blob bytes
  | _, _ => False

theorem Event.Stands.seen {ev : Event} {e : Seen} (h : ev.Stands blob e) (rest : List UInt8) :
    ev.seen (blob ++ rest) = e := by
  cases ev <;> cases e
  case beginNode.beginNode =>
    obtain ⟨rfl, rfl⟩ := h
    rfl
  case endNode.endNode => rfl
  case prop.prop =>
    obtain ⟨rfl, rfl, hat, hlen⟩ := h
    rw [Event.seen, Slice.bytes, hlen, (hat.append rest).take]
  all_goals exact h.elim

theorem seen_of_stands {es : List Seen} (h : List.Forall₂ (fun e s => e.1.Stands blob s) evs es)
    (rest : List UInt8) : evs.map (fun e => e.1.seen (blob ++ rest)) = es := by
  induction h with
  | nil => rfl
  | cons hstands _ ih => rw [List.map_cons, hstands.seen, ih]

/-- A walk in the blob does not depend on what is behind it. -/
theorem Yields.walks {rest : List UInt8} (h : Yields f blob (blob ++ rest).length w evs) :
    Walks f (blob ++ rest) w (evs.map Prod.fst) := by
  induction h with
  | @done w hsafe hvalue =>
    have hrun : ((w.nextEvent f).run (blob ++ rest)).2 = some (none, ((w.nextEvent f).value blob).2) := by
      rw [run_of_safe hsafe, ← hvalue]
    exact .done hrun
  | next hsafe hvalue _ ih =>
    refine .next ?_ ih
    rw [run_of_safe hsafe, hvalue]

/-- A walk that begins with the same call. -/
theorem Yields.congr (hsafe : (w.nextEvent f).Safe blob n ↔ (w'.nextEvent f).Safe blob n)
    (hvalue : (w.nextEvent f).value blob = (w'.nextEvent f).value blob) (h : Yields f blob n w' evs) :
    Yields f blob n w evs := by
  cases h with
  | done hsafe' hvalue' => exact .done (hsafe.mpr hsafe') (by rw [hvalue, hvalue'])
  | next hsafe' hvalue' hrest => exact .next (hsafe.mpr hsafe') (hvalue.trans hvalue') hrest

/-! ## Depths -/

/-- The depths are those of a counter that is at `d` before the events. -/
def Counted : (d : ℕ) → List Seen → Prop
  | _, [] => True
  | d, .beginNode depth _ :: es => depth = d + 1 ∧ Counted (d + 1) es
  | d, .prop depth _ _ :: es => depth = d ∧ Counted d es
  | d, .endNode :: es => Counted (d - 1) es

theorem counted_props {d : ℕ} {es : List Seen} (props : List (String × List UInt8)) (h : Counted d es) :
    Counted d (props.map (fun p => .prop d p.1 p.2) ++ es) := by
  induction props with
  | nil => exact h
  | cons p props ih => exact ⟨rfl, ih⟩

/-- Behind the nodes the counter is where it was. -/
theorem counted_nodes (nodes : Nodes) : ∀ {d : ℕ} {es : List Seen}, Counted d es →
    Counted d (nodes.events (d + 1) ++ es) := by
  induction nodes with
  | nil => exact fun h => h
  | node name props children next ihc ihn =>
    intro d es h
    rw [Nodes.events, List.append_assoc, List.append_assoc, List.cons_append]
    refine ⟨rfl, counted_props props ?_⟩
    exact ihc (ihn h)

/-! ## Lengths -/

theorem align4_le (k : ℕ) : k ≤ align4 k := by
  rw [align4]
  omega

@[simp]
theorem length_pad (bytes : List UInt8) : (pad bytes).length = align4 bytes.length := by
  have hle := align4_le bytes.length
  rw [pad, List.length_append, List.length_replicate]
  omega

/-- What is padded begins with what it pads. -/
theorem at_pad {i : ℕ} {bytes : List UInt8} (h : At blob i (pad bytes)) : At blob i bytes :=
  (at_append.mp h).1

/-! ## Tokens -/

/-- A token in front of the walk. -/
theorem token_in_front {token : ℕ} {more : List UInt8}
    (hat : At blob (f.structOff + w.pos) (beList 4 token ++ more)) :
    At blob (f.structOff + w.pos) (beList 4 token) ∧ At blob (f.structOff + w.skip.pos) more := by
  obtain ⟨htoken, hmore⟩ := at_append.mp hat
  rw [length_beList, Nat.add_assoc] at hmore
  exact ⟨htoken, hmore⟩

theorem Token.Writes.of_beginNode {name : String} {e : Seen} (h : (Token.beginNode name).Writes strings e) :
    ∃ depth, e = .beginNode depth name := by
  cases e with
  | beginNode depth name' =>
    obtain rfl : name = name' := h
    exact ⟨depth, rfl⟩
  | endNode => exact h.elim
  | prop => exact h.elim

theorem Token.Writes.of_endNode {e : Seen} (h : Token.endNode.Writes strings e) : e = .endNode := by
  cases e with
  | endNode => rfl
  | beginNode => exact h.elim
  | prop => exact h.elim

theorem Token.Writes.of_prop {nameoff : ℕ} {value : List UInt8} {e : Seen}
    (h : (Token.prop nameoff value).Writes strings e) :
    ∃ depth name, e = .prop depth name value ∧ At strings nameoff (asBytes name ++ [0]) := by
  cases e with
  | prop depth name value' =>
    obtain ⟨rfl, hname⟩ := h
    exact ⟨depth, name, rfl, hname⟩
  | beginNode => exact h.elim
  | endNode => exact h.elim

/-- An event in front of the walk. -/
theorem yields_event {ev : Event} {token : ℕ} {e : Seen} {es : List Seen} (hroom : w.pos + 4 ≤ f.structSize)
    (hat : At blob (f.structOff + w.pos) (beList 4 token)) (hlt : token < 2 ^ 32) (hnop : token ≠ FDT_NOP)
    (hevent : (Walker.event f w.skip token).Safe blob n ∧
      (Walker.event f w.skip token).value blob = (some ev, w')) (hstands : ev.Stands blob e)
    (hrest : ∃ evs, Yields f blob n w' evs ∧ List.Forall₂ (fun e s => e.1.Stands blob s) evs es) :
    ∃ evs, Yields f blob n w evs ∧ List.Forall₂ (fun e s => e.1.Stands blob s) evs (e :: es) := by
  obtain ⟨hsafe, hvalue⟩ := Walker.nextEvent_token (n := n) hroom hat hlt hnop
  obtain ⟨evs, hyields, hall⟩ := hrest
  exact ⟨(ev, w') :: evs, .next (hsafe.mpr hevent.1) (hvalue.trans hevent.2) hyields, .cons hstands hall⟩

/-- The walk over the tokens from `w` on. -/
theorem yields_tokens (hblob : blob.length < 2 ^ 32) (hstrings : At blob f.stringsOff strings)
    (tokens : List Token) : ∀ {w : Walker} {es : List Seen},
    List.Forall₂ (Token.Writes strings) (tokens.filter (· ≠ .nop)) es → (∀ e ∈ es, e.NulFree) →
    Counted w.depth es → At blob (f.structOff + w.pos) (structBlock tokens) →
    w.pos + (structBlock tokens).length = f.structSize →
    ∃ evs, Yields f blob n w evs ∧ List.Forall₂ (fun e s => e.1.Stands blob s) evs es := by
  have hblob' : blob.length < 2 ^ 64 := by omega
  induction tokens with
  | nil =>
    intro w es hwritten _ _ hat hsize
    obtain rfl := List.forall₂_nil_left_iff.mp hwritten
    have hat : At blob (f.structOff + w.pos) (beList 4 FDT_END) := hat
    have hroom : w.pos + 4 = f.structSize := hsize
    obtain ⟨hsafe, hvalue⟩ := Walker.nextEvent_token (n := n) hroom.le hat (by decide) (by decide)
    exact ⟨[], .done (hsafe.mpr (safe_pure _)) (by rw [hvalue]; rfl), .nil⟩
  | cons token tokens ih =>
    intro w es hwritten hnul hcounted hat hsize
    have hblock : structBlock (token :: tokens) = token.bytes ++ structBlock tokens := by
      rw [structBlock, structBlock, List.flatMap_cons, List.append_assoc]
    rw [hblock, at_append, Nat.add_assoc] at hat
    rw [hblock, List.length_append, ← Nat.add_assoc] at hsize
    obtain ⟨htoken, hrest⟩ := hat
    cases token with
    | nop =>
      have hroom : w.pos + 4 ≤ f.structSize := by
        rw [Token.bytes, length_beList] at hsize
        omega
      obtain ⟨hsafe, hvalue⟩ := Walker.nextEvent_nop (n := n) hroom htoken
      obtain ⟨evs, hyields, hall⟩ := ih (w := w.skip) hwritten hnul hcounted hrest hsize
      exact ⟨evs, hyields.congr hsafe hvalue, hall⟩
    | beginNode name =>
      obtain ⟨e, es, hhead, htail, rfl⟩ := List.forall₂_cons_left_iff.mp hwritten
      obtain ⟨hnulHead, hnulTail⟩ := List.forall_mem_cons.mp hnul
      obtain ⟨depth, rfl⟩ := hhead.of_beginNode
      obtain ⟨rfl, hcounted⟩ := hcounted
      obtain ⟨hat, hname⟩ := token_in_front htoken
      have hlen : (Token.beginNode name).bytes.length = 4 + align4 ((asBytes name).length + 1) := by
        simp [Token.bytes]
      rw [hlen, ← Nat.add_assoc w.pos] at hrest hsize
      have hevent := Walker.event_beginNode (n := n) hblob' (at_pad hname) hnulHead
      exact yields_event (by omega) hat (by decide) (by decide) hevent ⟨rfl, rfl⟩
        (ih htail hnulTail hcounted hrest hsize)
    | endNode =>
      obtain ⟨e, es, hhead, htail, rfl⟩ := List.forall₂_cons_left_iff.mp hwritten
      obtain ⟨-, hnulTail⟩ := List.forall_mem_cons.mp hnul
      obtain rfl := hhead.of_endNode
      have hlen : Token.endNode.bytes.length = 4 := length_beList 4 _
      rw [hlen] at hrest hsize
      exact yields_event (by omega) htoken (by decide) (by decide) ⟨safe_pure _, rfl⟩ trivial
        (ih htail hnulTail hcounted hrest hsize)
    | prop nameoff value =>
      obtain ⟨e, es, hhead, htail, rfl⟩ := List.forall₂_cons_left_iff.mp hwritten
      obtain ⟨hnulHead, hnulTail⟩ := List.forall_mem_cons.mp hnul
      obtain ⟨depth, name, rfl, hname⟩ := hhead.of_prop
      obtain ⟨rfl, hcounted⟩ := hcounted
      have hlen : (Token.prop nameoff value).bytes.length = 4 + 8 + align4 value.length := by
        simp only [Token.bytes, List.length_append, length_beList, length_pad]
      rw [hlen, ← Nat.add_assoc w.pos, ← Nat.add_assoc w.pos] at hrest hsize
      rw [Token.bytes, List.append_assoc] at htoken
      obtain ⟨hat, hmore⟩ := token_in_front htoken
      obtain ⟨hhead, hvalue⟩ := at_append.mp hmore
      have hvalue : At blob (f.structOff + w.skip.pos + 8) value := at_pad hvalue
      have hoff : nameoff < 2 ^ 32 := by
        have hle := hname.le (by simp)
        have hle' := hstrings.length_le
        rw [List.length_append, List.length_singleton] at hle
        omega
      have hevent := Walker.event_prop (n := n) hblob' hhead (hvalue.length_le.trans_lt hblob) hoff
        (hstrings.trans hname) hnulHead
      exact yields_event (by omega) hat (by decide) (by decide) hevent ⟨rfl, rfl, hvalue, rfl⟩
        (ih htail hnulTail hcounted hrest hsize)

/-! ## The whole blob -/

variable {t : Tree} {tokens : List Token} {structOff stringsOff addr : ℕ}

/-- The header of a flattening (lines 86–103). -/
def Flattens.fdt (_ : Flattens t blob tokens strings structOff stringsOff) : Fdt where
  structOff := structOff
  structSize := (structBlock tokens).length
  stringsOff := stringsOff
  totalSize := blob.length

theorem new_flattens (h : Flattens t blob tokens strings structOff stringsOff) (haddr : addr ≠ 0)
    (halign : addr &&& 7 = 0) :
    (Fdt.new addr).Safe blob n ∧ (Fdt.new addr).value blob = some h.fdt := by
  have hsmall := h.small
  have hin := h.stringsIn
  have hstruct := h.structAt.le (by simp [structBlock, beList, leList])
  obtain ⟨hhead, hstrings⟩ := at_append.mp h.header
  obtain ⟨hhead, hstruct'⟩ := at_append.mp hhead
  obtain ⟨hmagic, htotal⟩ := at_append.mp hhead
  simp only [List.length_append, length_beList, Nat.zero_add, Nat.reduceAdd] at htotal hstruct' hstrings
  have hmagic := be32_of_at (n := n) hmagic (by decide)
  have htotal := be32_of_at (n := n) htotal hsmall
  have hstruct' := be32_of_at (n := n) hstruct' (by omega)
  have hstrings := be32_of_at (n := n) hstrings (by omega)
  have hsize := be32_of_at (n := n) h.structSize (by omega)
  rw [Fdt.new, if_neg fun hc => hc.elim haddr fun hc => hc halign]
  simp only [safe_bind, value_bind, hmagic, htotal, hstruct', hstrings, hsize, ne_eq, not_true_eq_false,
    if_false, true_and, safe_pure, value_pure]
  rfl

/-- The walk over a flattening. -/
theorem yields_flattens (h : Flattens t blob tokens strings structOff stringsOff)
    (hnul : ∀ e ∈ t.events, e.NulFree) :
    ∃ evs, Yields h.fdt blob n Walker.new evs ∧ List.Forall₂ (fun e s => e.1.Stands blob s) evs t.events := by
  refine yields_tokens h.small h.stringsAt tokens h.written hnul ?_ h.structAt (Nat.zero_add _)
  have hcounted : Counted 0 (t.nodes.events 1 ++ []) := counted_nodes t.nodes trivial
  rwa [List.append_nil] at hcounted

/-- `next_event` gives the events of the tree in preorder, each with its depth, its name and its value, and
then `None`, whatever is behind the blob. -/
theorem walk_flattening (h : Flattens t blob tokens strings structOff stringsOff)
    (hnul : ∀ e ∈ t.events, e.NulFree) (haddr : addr ≠ 0) (halign : addr &&& 7 = 0) (rest : List UInt8) :
    ∃ f evs, ((Fdt.new addr).run (blob ++ rest)).2 = some (some f) ∧
      Walks f (blob ++ rest) Walker.new evs ∧ evs.map (Event.seen (blob ++ rest)) = t.events := by
  obtain ⟨hsafe, hvalue⟩ := new_flattens (n := (blob ++ rest).length) h haddr halign
  obtain ⟨evs, hyields, hall⟩ := yields_flattens (n := (blob ++ rest).length) h hnul
  refine ⟨h.fdt, evs.map Prod.fst, by rw [run_of_safe hsafe, hvalue], hyields.walks, ?_⟩
  rw [List.map_map]
  exact seen_of_stands hall rest

end

/-- A blob with its structure block behind the header, and its strings behind that. -/
def layOut (tokens : List Token) (strings : List UInt8) : List UInt8 :=
  let structSize := (structBlock tokens).length
  beList 4 FDT_MAGIC ++ beList 4 (40 + structSize + strings.length) ++ beList 4 40 ++
    beList 4 (40 + structSize) ++ beList 4 0 ++ beList 4 17 ++ beList 4 16 ++ beList 4 0 ++
    beList 4 strings.length ++ beList 4 structSize ++ structBlock tokens ++ strings

/-- A board with a serial port. -/
def board : Tree where
  name := ""
  props := [("#address-cells", beList 4 1), ("#size-cells", beList 4 1)]
  children := .node "serial@9000000"
    [("compatible", asBytes "arm,pl011" ++ [0]), ("reg", beList 4 0x9000000 ++ beList 4 0x1000)]
    (.node "port" [] .nil .nil) .nil

namespace board

/-- Its tokens, with an `FDT_NOP` behind the properties of the root. -/
def tokens : List Token :=
  [.beginNode "", .prop 0 (beList 4 1), .prop 15 (beList 4 1), .nop, .beginNode "serial@9000000",
    .prop 27 (asBytes "arm,pl011" ++ [0]), .prop 38 (beList 4 0x9000000 ++ beList 4 0x1000),
    .beginNode "port", .endNode, .endNode, .endNode]

def strings : List UInt8 :=
  ["#address-cells", "#size-cells", "compatible", "reg"].flatMap fun name => asBytes name ++ [0]

def blob : List UInt8 := layOut tokens strings

theorem flattens : Flattens board blob tokens strings 40 (40 + (structBlock tokens).length) where
  written := by decide
  header := by set_option maxRecDepth 20000 in decide
  version := by decide
  structSize := by set_option maxRecDepth 20000 in decide
  structAt := by decide
  stringsAt := by set_option maxRecDepth 20000 in decide
  stringsIn := by set_option maxRecDepth 20000 in decide
  small := by set_option maxRecDepth 20000 in decide

theorem nulFree : ∀ e ∈ board.events, e.NulFree := by decide

end board

/-- The walk over that board, at 0x4000_0000. -/
theorem walk_board : ∃ f evs, ((Fdt.new 0x40000000).run (board.blob ++ [])).2 = some (some f) ∧
    Walks f (board.blob ++ []) Walker.new evs ∧
      evs.map (Event.seen (board.blob ++ [])) = board.events :=
  walk_flattening board.flattens board.nulFree (by decide) (by decide) []

end JungeyOs.Dtb
