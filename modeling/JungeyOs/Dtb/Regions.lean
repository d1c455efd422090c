import JungeyOs.Dtb.Flattening
import JungeyOs.Dtb.Lookup

/-!
# The memory of the board

Model of `kernel/src/dtb.rs`, lines 305–314 and 391–447: the iterator over the `reg` pairs of the memory
nodes, and whether it comes to an end. The memory is readable throughout here: an access that fails ends the
iteration too (`run_of_ends`).

Results:
* `ends_iff`: from any walker on, by the events that are left.
* `terminates_iff`: the blobs for which the iteration terminates.
-/

namespace JungeyOs.Dtb

open Bytes Reads
open Jlfs (asBytes)

/-- `MemoryRegions` (lines 391–397): what is left of a `reg` is the value with a cursor. -/
structure MemoryRegions where
  walker : Walker
  cells : Option (Slice × ℕ)
  addrCells : ℕ
  sizeCells : ℕ
  deriving DecidableEq

/-- How a turn of the loop of `next` ends: with a pair, with `None`, or with the next turn. -/
inductive Turn
  | pair (base size : ℕ)
  | done
  | again
  deriving DecidableEq

namespace MemoryRegions

/-- `memory_regions` (lines 306–313). -/
def new : MemoryRegions where
  walker := Walker.new
  cells := none
  addrCells := 2
  sizeCells := 2

/-- The second half of a turn, on the next event (lines 428–444). -/
def advance (f : Fdt) (s : MemoryRegions) : Reads UInt8 (Turn × MemoryRegions) := do
  let (ev, walker) ← s.walker.nextEvent f
  let s := { s with walker, cells := none }
  match ev with
  | none => return (.done, s)
  | some (.prop depth name value) =>
    if depth = 1 ∧ name = "#address-cells" ∧ 4 ≤ value.len then do
      let addrCells ← be32 value.pos
      return (.again, { s with addrCells })
    else if depth = 1 ∧ name = "#size-cells" ∧ 4 ≤ value.len then do
      let sizeCells ← be32 value.pos
      return (.again, { s with sizeCells })
    else if name = "reg" ∧ walker.inMemoryNode then return (.again, { s with cells := some (value, 0) })
    else return (.again, s)
  | some _ => return (.again, s)

/-- A turn of the loop of `next` (lines 413–444). -/
def turn (f : Fdt) (s : MemoryRegions) : Reads UInt8 (Turn × MemoryRegions) :=
  match s.cells with
  | some (reg, cursor) =>
    let stride := (s.addrCells + s.sizeCells) * 4
    if cursor + stride ≤ reg.len then do
      let base ← readCells reg cursor s.addrCells
      let size ← readCells reg (cursor + s.addrCells * 4) s.sizeCells
      let s := { s with cells := some (reg, cursor + stride) }
      if 0 < size then return (.pair base size, s) else return (.again, s)
    else s.advance f
  | none => s.advance f

/-- The turns of all calls of `next` up to the one that returns `None`, one after another: the pairs, or
`none` if it takes more turns than `fuel`. -/
def iterate (f : Fdt) : (fuel : ℕ) → MemoryRegions → Reads UInt8 (Option (List (ℕ × ℕ)))
  | 0, _ => pure none
  | fuel + 1, s => do
    let (turn, s) ← s.turn f
    match turn with
    | .done => return some []
    | .again => iterate f fuel s
    | .pair base size => do
      let more ← iterate f fuel s
      return more.map ((base, size) :: ·)

end MemoryRegions

/-! ## What is declared -/

/-- The events from a walker on, each with the walker behind it. -/
def eventsFrom (f : Fdt) (mem : ℕ → UInt8) : (fuel : ℕ) → Walker → List (Event × Walker)
  | 0, _ => []
  | fuel + 1, w =>
    match (w.nextEvent f).eval mem with
    | (none, _) => []
    | (some ev, w) => (ev, w) :: eventsFrom f mem fuel w

/-- The events of the blob. Every one takes a token. -/
def Fdt.events (f : Fdt) (mem : ℕ → UInt8) : List (Event × Walker) :=
  eventsFrom f mem f.structSize Walker.new

/-- The numbers of address and size cells behind an event. -/
def Event.declare (mem : ℕ → UInt8) (cells : ℕ × ℕ) : Event → ℕ × ℕ
  | .prop depth name value =>
    if depth = 1 ∧ name = "#address-cells" ∧ 4 ≤ value.len then ((be32 value.pos).eval mem, cells.2)
    else if depth = 1 ∧ name = "#size-cells" ∧ 4 ≤ value.len then (cells.1, (be32 value.pos).eval mem)
    else cells
  | _ => cells

/-- The `reg` of a memory node. -/
def Event.memoryReg (w : Walker) : Event → Option Slice
  | .prop _ name value => if name = "reg" ∧ w.inMemoryNode then some value else none
  | _ => none

/-- There is a memory node whose `reg` comes while both numbers of cells are zero. -/
def Stalls (mem : ℕ → UInt8) : (cells : ℕ × ℕ) → List (Event × Walker) → Prop
  | _, [] => False
  | cells, (ev, w) :: evs =>
    cells = (0, 0) ∧ (ev.memoryReg w).isSome ∨ Stalls mem (ev.declare mem cells) evs

def Stalls.decidable (mem : ℕ → UInt8) : (cells : ℕ × ℕ) → (evs : List (Event × Walker)) →
    Decidable (Stalls mem cells evs)
  | _, [] => .isFalse nofun
  | cells, (ev, _) :: evs => @instDecidableOr _ _ _ (decidable mem (ev.declare mem cells) evs)

instance (mem : ℕ → UInt8) (cells : ℕ × ℕ) (evs : List (Event × Walker)) :
    Decidable (Stalls mem cells evs) := Stalls.decidable mem cells evs

namespace MemoryRegions

/-- The iteration from a state on comes to an end. -/
def Ends (f : Fdt) (mem : ℕ → UInt8) (s : MemoryRegions) : Prop :=
  ∃ fuel, ((s.iterate f fuel).eval mem).isSome

section

variable {f : Fdt} {mem : ℕ → UInt8} {s : MemoryRegions} {w : Walker} {reg : Slice} {cursor a z : ℕ}

theorem isSome_iterate (fuel : ℕ) : ((s.iterate f (fuel + 1)).eval mem).isSome ↔
    ((s.turn f).eval mem).1 = .done ∨ ((((s.turn f).eval mem).2.iterate f fuel).eval mem).isSome := by
  rw [iterate, eval_bind]
  match (s.turn f).eval mem with
  | (.done, s') => simp
  | (.again, s') => simp
  | (.pair base size, s') => simp

/-- A turn ends the iteration, or the rest of it comes to an end. -/
theorem ends_turn : Ends f mem s ↔ ((s.turn f).eval mem).1 = .done ∨ Ends f mem ((s.turn f).eval mem).2 := by
  constructor
  · rintro ⟨fuel, hsome⟩
    cases fuel with
    | zero => cases hsome
    | succ fuel =>
      obtain hdone | hrest := (isSome_iterate fuel).mp hsome
      · exact Or.inl hdone
      · exact Or.inr ⟨fuel, hrest⟩
  · rintro (hdone | ⟨fuel, hrest⟩)
    · exact ⟨1, (isSome_iterate 0).mpr (Or.inl hdone)⟩
    · exact ⟨fuel + 1, (isSome_iterate fuel).mpr (Or.inr hrest)⟩

/-- In a memory that ends somewhere, the iteration fails or comes to the same end. -/
theorem run_of_ends {buf : List UInt8} (hmem : ∀ i b, buf[i]? = some b → mem i = b) (h : Ends f mem s) :
    ∃ fuel, ((s.iterate f fuel).run buf).2 ≠ some none := by
  obtain ⟨fuel, hsome⟩ := h
  refine ⟨fuel, fun hrun => ?_⟩
  obtain hnone | heval := run_eq_eval hmem (s.iterate f fuel)
  · rw [hrun] at hnone
    cases hnone
  · rw [hrun, Option.some_inj] at heval
    rw [← heval] at hsome
    cases hsome

/-! ## What is left of a `reg` -/

/-- A turn takes a pair, whatever it is. -/
theorem turn_pair (f : Fdt) (mem : ℕ → UInt8) (w : Walker) (h : cursor + (a + z) * 4 ≤ reg.len) :
    (((⟨w, some (reg, cursor), a, z⟩ : MemoryRegions).turn f).eval mem).1 ≠ .done ∧
      (((⟨w, some (reg, cursor), a, z⟩ : MemoryRegions).turn f).eval mem).2 =
        ⟨w, some (reg, cursor + (a + z) * 4), a, z⟩ := by
  rw [turn]
  dsimp only
  rw [if_pos h, eval_bind, eval_bind]
  split_ifs <;> exact ⟨nofun, rfl⟩

/-- Without a pair left, the turn goes on to the next event. -/
theorem turn_drained (h : ¬cursor + (a + z) * 4 ≤ reg.len) :
    (⟨w, some (reg, cursor), a, z⟩ : MemoryRegions).turn f =
      (⟨w, none, a, z⟩ : MemoryRegions).turn f := by
  rw [turn, turn]
  dsimp only
  rw [if_neg h]
  rfl

/-- What is left of a `reg` is taken pair by pair. -/
theorem ends_drain (f : Fdt) (mem : ℕ → UInt8) (w : Walker) (reg : Slice) (hstride : 0 < a + z)
    (m : ℕ) : ∀ {cursor : ℕ}, reg.len < cursor + m →
      (Ends f mem ⟨w, some (reg, cursor), a, z⟩ ↔ Ends f mem ⟨w, none, a, z⟩) := by
  induction m with
  | zero =>
    intro cursor hm
    rw [ends_turn, turn_drained (by omega), ← ends_turn]
  | succ m ih =>
    intro cursor hm
    by_cases h : cursor + (a + z) * 4 ≤ reg.len
    · obtain ⟨hgoes, hnext⟩ := turn_pair f mem w h
      rw [ends_turn, or_iff_right hgoes, hnext]
      exact ih (by omega)
    · rw [ends_turn, turn_drained h, ← ends_turn]

/-- With no cells, the same pair is taken again and again. -/
theorem not_ends_of_zero (h : cursor ≤ reg.len) : ¬Ends f mem ⟨w, some (reg, cursor), 0, 0⟩ := by
  rintro ⟨fuel, hsome⟩
  have hstep : cursor + (0 + 0) * 4 ≤ reg.len := h
  obtain ⟨hgoes, hnext⟩ := turn_pair f mem w hstep
  induction fuel with
  | zero => cases hsome
  | succ fuel ih =>
    rw [isSome_iterate, or_iff_right hgoes, hnext] at hsome
    exact ih hsome

/-! ## The events -/

theorem turn_end {w' : Walker} (h : (w.nextEvent f).eval mem = (none, w')) :
    (((⟨w, none, a, z⟩ : MemoryRegions).turn f).eval mem).1 = .done := by
  rw [turn, advance, eval_bind]
  dsimp only
  rw [h]
  rfl

/-- A turn on an event. -/
theorem turn_event {ev : Event} {w' : Walker} (h : (w.nextEvent f).eval mem = (some ev, w')) :
    ((⟨w, none, a, z⟩ : MemoryRegions).turn f).eval mem = (.again,
      ⟨w', (ev.memoryReg w').map fun reg => (reg, 0), (ev.declare mem (a, z)).1,
        (ev.declare mem (a, z)).2⟩) := by
  rw [turn, advance, eval_bind]
  dsimp only
  rw [h]
  cases ev with
  | beginNode depth name => rfl
  | endNode => rfl
  | prop depth name value =>
    dsimp only
    rw [Event.memoryReg, Event.declare]
    split_ifs <;> simp_all

theorem declare_of_memoryReg {ev : Event} (h : ev.memoryReg w = some reg) (cells : ℕ × ℕ) :
    ev.declare mem cells = cells := by
  cases ev with
  | beginNode depth name => rfl
  | endNode => rfl
  | prop depth name value =>
    have hname : name = "reg" := by
      rw [Event.memoryReg, Option.ite_none_right_eq_some] at h
      exact h.1.1
    rw [Event.declare, hname, if_neg (by simp), if_neg (by simp)]

/-- From a walker on, the iteration comes to an end exactly if none of the events that are left stalls it. -/
theorem ends_iff (fuel : ℕ) : ∀ {w : Walker} {a z : ℕ}, f.structSize ≤ w.pos + fuel →
    (Ends f mem ⟨w, none, a, z⟩ ↔ ¬Stalls mem (a, z) (eventsFrom f mem fuel w)) := by
  induction fuel with
  | zero =>
    intro w a z hfuel
    have hend : (w.nextEvent f).eval mem = (none, w) := by
      rw [Walker.nextEvent_end (by omega)]
      rfl
    rw [ends_turn]
    exact iff_of_true (Or.inl (turn_end hend)) not_false
  | succ fuel ih =>
    intro w a z hfuel
    rw [ends_turn, eventsFrom]
    match hnext : (w.nextEvent f).eval mem with
    | (none, w') => exact iff_of_true (Or.inl (turn_end hnext)) not_false
    | (some ev, w') =>
      have htook : Walker.Took f w ((w.nextEvent f).eval mem) := (Walker.nextEvent_took f w).eval mem
      rw [hnext] at htook
      obtain ⟨-, hpos⟩ : w.pos + 4 ≤ f.structSize ∧ w.pos + 4 ≤ w'.pos := htook rfl
      rw [turn_event hnext, or_iff_right nofun]
      dsimp only
      rw [Stalls, not_or, ← ih (w := w') (by omega)]
      cases hreg : ev.memoryReg w' with
      | none => simp
      | some reg =>
        rw [declare_of_memoryReg hreg]
        by_cases hzero : a = 0 ∧ z = 0
        · obtain ⟨rfl, rfl⟩ := hzero
          exact iff_of_false (not_ends_of_zero (Nat.zero_le _)) fun h => h.1 ⟨rfl, rfl⟩
        · have hcells : (a, z) ≠ (0, 0) := fun h => hzero (Prod.mk.inj h)
          have hdrain := ends_drain f mem w' reg (show 0 < a + z by omega)
            (reg.len + 1) (show reg.len < 0 + (reg.len + 1) by omega)
          exact hdrain.trans (and_iff_right fun h => hcells h.1).symm

/-- The iteration terminates exactly if no memory node has a `reg` that comes while both numbers of cells
are declared to be zero. -/
theorem terminates_iff (f : Fdt) (mem : ℕ → UInt8) :
    Ends f mem new ↔ ¬Stalls mem (2, 2) (f.events mem) := by
  exact ends_iff f.structSize (Nat.le_add_left _ _)

end

/-- A blob with a memory node, whose root declares numbers of cells that are zero. -/
def zeroCells : List UInt8 :=
  let tokens : List Token :=
    [.beginNode "", .prop 0 (beList 4 0), .prop 15 (beList 4 0), .beginNode "memory@40000000",
      .prop 27 (beList 8 0x40000000 ++ beList 8 0x10000000), .endNode, .endNode]
  layOut tokens (["#address-cells", "#size-cells", "reg"].flatMap fun name => asBytes name ++ [0])

/-- The iteration over its memory does not come to an end. -/
theorem zeroCells_stalls : ∃ f, (Fdt.new 0x40000000).eval (fun i => zeroCells.getD i 0) = some f ∧
    ¬Ends f (fun i => zeroCells.getD i 0) new := by
  have hnew : (Fdt.new 0x40000000).eval (fun i => zeroCells.getD i 0) = some ⟨40, 100, 140, 171⟩ := by
    decide
  have hstalls : Stalls (fun i => zeroCells.getD i 0) (2, 2)
      (Fdt.events ⟨40, 100, 140, 171⟩ fun i => zeroCells.getD i 0) := by
    decide
  exact ⟨_, hnew, fun hends => (ends_iff 100 (Nat.le_add_left _ _)).mp hends hstalls⟩

end MemoryRegions

end JungeyOs.Dtb
