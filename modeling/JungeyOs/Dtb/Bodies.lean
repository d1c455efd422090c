import JungeyOs.Dtb.Parsing
import JungeyOs.Dtb.Regions

/-!
# What the functions read of a value

The bodies of `node_regs`, `devices`, `prop_of` and `cpus` and the turns of `memory_regions`
(`kernel/src/dtb.rs`, lines 141–303 and 399–447), on values that may reach past the end of the blob.

Results:
* `NodeRegs.prop_safe_iff` and the others: what a body reads of the value of a property.
* `NodeRegs.goes_on`, `PropOf.goes_on`: the search for a string that no list has does not return.
* `MemoryRegions.stays_iff`: what the iteration reads, by the events that are left.
-/

namespace JungeyOs.Dtb

open Bytes Reads
open Jlfs (asBytes)

section

variable {blob : List UInt8} {n : ℕ} {f : Fdt} {w w' : Walker} {token : ℕ} {evs : List (Event × Walker)}

namespace NodeRegs

variable {r : Slice} {a z : ℕ}

/-- A pair and those behind it. -/
theorem pairs_succ_safe {room offset : ℕ} (h : offset + (a + z) * 4 ≤ r.len) :
    (pairs r a z (room + 1) offset).Safe blob n ↔
      (a + z = 0 ∨ r.pos + offset + (a + z) * 4 ≤ blob.length) ∧
        (pairs r a z room (offset + (a + z) * 4)).Safe blob n := by
  rw [← pair_safe_iff (n := n), pairs, if_pos h, safe_bind, safe_bind, safe_bind, and_assoc]
  exact and_congr_right fun _ => and_congr_right fun _ => and_iff_left (safe_pure _)

theorem pairs_safe_of_zero (room : ℕ) : ∀ offset : ℕ, (pairs r 0 0 room offset).Safe blob n := by
  induction room with
  | zero => exact fun _ => safe_pure _
  | succ room ih =>
    intro offset
    by_cases h : offset + (0 + 0) * 4 ≤ r.len
    · exact (pairs_succ_safe h).mpr ⟨Or.inl rfl, ih _⟩
    · rw [pairs, if_neg h]
      exact safe_pure _

theorem pairs_safe_of_in (room : ℕ) : ∀ {m : ℕ}, PairsIn blob r a z m →
    (pairs r a z room (m * ((a + z) * 4))).Safe blob n := by
  induction room with
  | zero => exact fun _ => safe_pure _
  | succ room ih =>
    intro m hin
    by_cases h : (m + 1) * ((a + z) * 4) ≤ r.len
    · obtain ⟨hpair, hrest⟩ := (pairsIn_succ h).mp hin
      rw [Nat.succ_mul] at h hpair
      have hsafe := ih (m := m + 1) hrest
      rw [Nat.succ_mul] at hsafe
      exact (pairs_succ_safe h).mpr ⟨Or.inr (by omega), hsafe⟩
    · rw [Nat.succ_mul] at h
      rw [pairs, if_neg h]
      exact safe_pure _

/-- With room for all pairs, all are read. -/
theorem in_of_pairs_safe (hstride : 0 < a + z) (room : ℕ) : ∀ {m : ℕ}, r.len < (m + room) * ((a + z) * 4) →
    (pairs r a z room (m * ((a + z) * 4))).Safe blob n → PairsIn blob r a z m := by
  induction room with
  | zero => exact fun hlen _ => pairsIn_of_lt (hlen.trans_le (Nat.mul_le_mul_right _ (by omega)))
  | succ room ih =>
    intro m hlen hsafe
    by_cases h : (m + 1) * ((a + z) * 4) ≤ r.len
    · have h' := h
      rw [Nat.succ_mul] at h'
      obtain ⟨hpair, hrest⟩ := (pairs_succ_safe h').mp hsafe
      rw [← Nat.succ_mul] at hrest
      refine (pairsIn_succ h).mpr ⟨?_, ih (by rwa [Nat.succ_add_eq_add_succ]) hrest⟩
      rw [Nat.succ_mul]
      omega
    · exact pairsIn_of_lt (Nat.not_le.mp h)

theorem pairs_safe_iff : (∀ room, (pairs r a z room 0).Safe blob n) ↔ r.Within blob (whole a z r.len) := by
  obtain hzero | hstride := Nat.eq_zero_or_pos (a + z)
  · obtain ⟨rfl, rfl⟩ := Nat.add_eq_zero_iff.mp hzero
    exact iff_of_true (fun room => pairs_safe_of_zero room 0) (Or.inl rfl)
  · rw [within_whole_iff hstride]
    constructor
    · intro hsafe
      have hall := hsafe (r.len + 1)
      rw [← Nat.zero_mul ((a + z) * 4)] at hall
      refine in_of_pairs_safe hstride (r.len + 1) ?_ hall
      rw [Nat.zero_add]
      exact Nat.lt_of_lt_of_le (Nat.lt_succ_self _) (Nat.le_mul_of_pos_right _ (by omega))
    · intro hin room
      have hsafe := pairs_safe_of_in (n := n) room hin
      rwa [Nat.zero_mul] at hsafe

/-- The values that are kept lie in the blob. -/
def In (blob : List UInt8) (s : NodeRegs Slice) : Prop :=
  (∀ v, s.curCompat = some v → v.Within blob v.len) ∧ ∀ v, s.curReg = some v → v.Within blob v.len

theorem look_in {c : String} {room : ℕ} {s : NodeRegs Slice} (h : s.In blob) :
    (look c room s).Safe blob n := by
  obtain ⟨a, z, compat, reg⟩ := s
  cases compat with
  | none => exact safe_pure _
  | some v =>
    cases reg with
    | none => exact safe_pure _
    | some r =>
      have hfound := compatMatches_safe (n := n) (h.1 v rfl) c
      have hpairs := pairs_safe_iff (n := n).mpr ((h.2 r rfl).mono (whole_le a z r.len)) room
      rw [look, safe_bind, safe_ite, safe_bind]
      exact ⟨hfound, fun _ => ⟨hpairs, safe_pure _⟩, fun _ => safe_pure _⟩

/-- The check changes nothing. -/
theorem look_value {c : String} {room : ℕ} {s : NodeRegs Slice} :
    (look c room s).Returns fun r => ∀ s', r = .inl s' → s' = s := by
  obtain ⟨a, z, compat, reg⟩ := s
  cases compat with
  | none => exact returns_pure fun s' hs' => (Sum.inl.inj hs').symm
  | some v =>
    cases reg with
    | none => exact returns_pure fun s' hs' => (Sum.inl.inj hs').symm
    | some r =>
      rw [look]
      refine returns_bind _ fun found => ?_
      split_ifs
      · exact returns_bind _ fun _ => returns_pure nofun
      · exact returns_pure fun s' hs' => (Sum.inl.inj hs').symm

/-- The body reads the blob only if the value lies in it. -/
theorem body_in {c : String} {room : ℕ} (s : NodeRegs Slice) (w : Walker) (ev : Event) (h : s.In blob)
    (hev : ev.In blob) : (body c room s w ev).Safe blob n ∧
      ∀ s', (body c room s w ev).value blob = .inl s' → s'.In blob := by
  cases ev with
  | beginNode depth name => exact ⟨safe_pure _, fun s' hs' => Sum.inl.inj hs' ▸ ⟨nofun, nofun⟩⟩
  | endNode => exact ⟨safe_pure _, fun s' hs' => Sum.inl.inj hs' ▸ h⟩
  | prop depth name value =>
    have hev : value.Within blob value.len := hev
    have hlook (s' : NodeRegs Slice) (hs' : s'.In blob) : (look c room s').Safe blob n ∧
        ∀ s'', (look c room s').value blob = .inl s'' → s''.In blob :=
      ⟨look_in hs', fun s'' hs'' => look_value.value s'' hs'' ▸ hs'⟩
    rw [body]
    split_ifs with h₁ h₂
    · rw [safe_bind, value_bind, word_safe_iff]
      exact ⟨⟨hev.mono h₁.2.2, safe_pure _⟩, fun s' hs' => Sum.inl.inj hs' ▸ h⟩
    · rw [safe_bind, value_bind, word_safe_iff]
      exact ⟨⟨hev.mono h₂.2.2, safe_pure _⟩, fun s' hs' => Sum.inl.inj hs' ▸ h⟩
    · exact hlook _ ⟨fun v hv => Option.some.inj hv ▸ hev, h.2⟩
    · exact hlook _ ⟨h.1, fun v hv => Option.some.inj hv ▸ hev⟩
    · exact hlook _ h

theorem look_compat_safe_iff {c : String} {room : ℕ} {s : NodeRegs Slice} {value : Slice} (h : s.In blob) :
    (look c room { s with curCompat := some value }).Safe blob n ↔
      (s.curReg.isSome → (compatMatches value c).Safe blob n) := by
  obtain ⟨a, z, compat, reg⟩ := s
  cases reg with
  | none => exact iff_of_true (safe_pure _) nofun
  | some r =>
    have hpairs := pairs_safe_iff (n := n).mpr ((h.2 r rfl).mono (whole_le a z r.len)) room
    rw [look, safe_bind, safe_ite, safe_bind]
    constructor
    · exact fun hsafe _ => hsafe.1
    · exact fun hsafe => ⟨hsafe rfl, fun _ => ⟨hpairs, safe_pure _⟩, fun _ => safe_pure _⟩

theorem look_reg_safe_iff {c : String} {room : ℕ} {s : NodeRegs Slice} {value : Slice} (h : s.In blob) :
    (look c room { s with curReg := some value }).Safe blob n ↔
      ∀ v, s.curCompat = some v → (compatMatches v c).value blob = true →
        (pairs value s.addrCells s.sizeCells room 0).Safe blob n := by
  obtain ⟨a, z, compat, reg⟩ := s
  cases compat with
  | none => exact iff_of_true (safe_pure _) nofun
  | some v =>
    have hfound := compatMatches_safe (n := n) (h.1 v rfl) c
    rw [look, safe_bind, safe_ite, safe_bind, and_iff_right hfound]
    simp only [safe_pure, and_true, implies_true, Option.some.injEq, forall_eq']

/-- What the body reads of the value of a property. -/
theorem prop_safe_iff {c : String} {room : ℕ} {s : NodeRegs Slice} {w : Walker} {depth : ℕ} {name : String}
    {value : Slice} (h : s.In blob) : (body c room s w (.prop depth name value)).Safe blob n ↔
      (depth = 1 → name = "#address-cells" ∨ name = "#size-cells" → 4 ≤ value.len → value.Within blob 4) ∧
        (name = "compatible" → s.curReg.isSome → (compatMatches value c).Safe blob n) ∧
        (name = "reg" → ∀ v, s.curCompat = some v → (compatMatches v c).value blob = true →
          (pairs value s.addrCells s.sizeCells room 0).Safe blob n) := by
  rw [body]
  split_ifs with h₁ h₂ h₃ h₄
  · obtain ⟨hdepth, hname, hlen⟩ := h₁
    simp [Slice.Within, hdepth, hname, hlen]
  · obtain ⟨hdepth, hname, hlen⟩ := h₂
    simp [Slice.Within, hdepth, hname, hlen]
  · simp [look_compat_safe_iff h, h₃]
  · simp [look_reg_safe_iff h, h₄]
  · refine iff_of_true (look_in h) ⟨fun hdepth hname hlen => ?_, fun hname => absurd hname h₃,
      fun hname => absurd hname h₄⟩
    obtain hname | hname := hname
    · exact absurd ⟨hdepth, hname, hlen⟩ h₁
    · exact absurd ⟨hdepth, hname, hlen⟩ h₂

theorem look_long {c : String} {room : ℕ} (hc : blob.length < (asBytes c).length) {s : NodeRegs Slice}
    (h : s.In blob) : (look c room s).value blob = .inl s := by
  obtain ⟨a, z, compat, reg⟩ := s
  cases compat with
  | none => rfl
  | some v =>
    cases reg with
    | none => rfl
    | some r =>
      rw [look, value_bind, (compatMatches_long (n := 0) hc v).2 (h.1 v rfl)]
      rfl

/-- The search for a string that is longer than the blob goes on. -/
theorem goes_on {c : String} {room : ℕ} (hc : blob.length < (asBytes c).length) (s : NodeRegs Slice)
    (w : Walker) (ev : Event) (h : s.In blob) (hev : ev.In blob) :
    ∃ s', (body c room s w ev).value blob = .inl s' ∧ s'.In blob := by
  cases ev with
  | beginNode depth name => exact ⟨_, rfl, nofun, nofun⟩
  | endNode => exact ⟨_, rfl, h⟩
  | prop depth name value =>
    have hcompat : In blob { s with curCompat := some value } := ⟨fun v hv => Option.some.inj hv ▸ hev, h.2⟩
    have hreg : In blob { s with curReg := some value } := ⟨h.1, fun v hv => Option.some.inj hv ▸ hev⟩
    rw [body]
    split_ifs
    · exact ⟨_, rfl, h⟩
    · exact ⟨_, rfl, h⟩
    · exact ⟨_, look_long hc hcompat, hcompat⟩
    · exact ⟨_, look_long hc hreg, hreg⟩
    · exact ⟨_, look_long hc h, h⟩

/-- There is a `reg` only if the node has had one. -/
theorem names_step {c : String} {room : ℕ} (s : NodeRegs Slice) (names : List String) (w : Walker)
    (ev : Event) (s' : NodeRegs Slice) (h : s.curReg.isSome → "reg" ∈ names)
    (hnext : (body c room s w ev).value blob = .inl s') : s'.curReg.isSome → "reg" ∈ ev.names names := by
  cases ev with
  | beginNode depth name =>
    obtain rfl := Sum.inl.inj hnext
    exact nofun
  | endNode =>
    obtain rfl := Sum.inl.inj hnext
    exact h
  | prop depth name value =>
    rw [Event.names, List.mem_cons]
    rw [body] at hnext
    split_ifs at hnext with h₁ h₂ h₃ h₄
    · obtain rfl := Sum.inl.inj hnext
      exact fun hreg => Or.inr (h hreg)
    · obtain rfl := Sum.inl.inj hnext
      exact fun hreg => Or.inr (h hreg)
    · obtain rfl := look_value.value s' hnext
      exact fun hreg => Or.inr (h hreg)
    · exact fun _ => Or.inl h₄.symm
    · obtain rfl := look_value.value s' hnext
      exact fun hreg => Or.inr (h hreg)

theorem behind_names {c : String} {room : ℕ} {init : List (Event × Walker)} {s : NodeRegs Slice}
    (h : behind (body c room) blob NodeRegs.new init = some s) :
    s.curReg.isSome → "reg" ∈ init.foldl (fun names e => e.1.names names) [] :=
  behind_inv (fun (s : NodeRegs Slice) names => s.curReg.isSome → "reg" ∈ names) names_step init
    (fun h => absurd h (by decide)) h

/-- The room makes a difference only to what is returned. -/
theorem look_room {c : String} (room room' : ℕ) (s s' : NodeRegs Slice) :
    (look c room s).value blob = .inl s' ↔ (look c room' s).value blob = .inl s' := by
  obtain ⟨a, z, compat, reg⟩ := s
  cases compat with
  | none => rfl
  | some v =>
    cases reg with
    | none => rfl
    | some r =>
      rw [look, look, value_bind, value_bind]
      by_cases hfound : (compatMatches v c).value blob = true
      · rw [if_pos hfound, if_pos hfound, value_bind, value_bind]
        exact iff_of_false nofun nofun
      · rw [if_neg hfound, if_neg hfound]

theorem behind_room {c : String} (room room' : ℕ) (evs : List (Event × Walker)) {s s' : NodeRegs Slice}
    (h : behind (body c room) blob s evs = some s') : behind (body c room') blob s evs = some s' := by
  refine behind_congr (fun s w ev s' => ?_) evs h
  cases ev with
  | beginNode depth name => exact id
  | endNode => exact id
  | prop depth name value =>
    rw [body, body]
    split_ifs
    · exact id
    · exact id
    · exact (look_room room room' _ s').mp
    · exact (look_room room room' _ s').mp
    · exact (look_room room room' _ s').mp

end NodeRegs

/-- A number of cells that the event declares lies in the blob. -/
def Event.CellsIn (blob : List UInt8) : Event → Prop
  | .prop depth name value =>
    depth = 1 → name = "#address-cells" ∨ name = "#size-cells" → 4 ≤ value.len → value.Within blob 4
  | _ => True

theorem Event.In.cells {ev : Event} (h : ev.In blob) : ev.CellsIn blob := by
  cases ev with
  | beginNode => trivial
  | endNode => trivial
  | prop depth name value => exact fun _ _ hlen => Slice.Within.mono h hlen

namespace Devices

/-- The values that are kept lie in the blob. -/
structure In (blob : List UInt8) (s : Devices Slice DeviceNode) : Prop where
  compat : ∀ v, s.compat = some v → v.Within blob v.len
  reg : ∀ v, s.reg = some v → v.Within blob v.len
  interrupts : ∀ v, s.interrupts = some v → v.Within blob v.len

theorem irq_in {interrupts : Option Slice} (h : ∀ v, interrupts = some v → v.Within blob v.len) :
    (irq interrupts).Safe blob n := by
  cases interrupts with
  | none => exact safe_pure _
  | some v =>
    obtain ⟨bytes, hholds⟩ := (h v rfl).holds
    rw [irq, safe_bind]
    exact ⟨gicIntid_safe hholds, safe_pure _⟩

/-- At an `EndNode` only values of events before are looked at. -/
theorem endNode_in {c : String} {s : Devices Slice DeviceNode} (h : s.In blob) :
    (s.on c .endNode).Safe blob n ∧ (s.on c .endNode).Returns (In blob) := by
  obtain ⟨a, z, compat, reg, interrupts, out⟩ := s
  cases compat with
  | none => exact ⟨safe_pure _, returns_pure h⟩
  | some v =>
    cases reg with
    | none => exact ⟨safe_pure _, returns_pure h⟩
    | some r =>
      rw [on]
      constructor
      · rw [safe_bind, and_iff_right (compatMatches_safe (h.compat v rfl) c), safe_ite]
        refine ⟨fun _ => safe_pure _, fun hlong => ?_⟩
        simp only [Bool.or_eq_true, decide_eq_true_eq, not_or, Nat.not_lt] at hlong
        have hpair : (readCells r 0 a).Safe blob n ∧ (readCells r (0 + a * 4) z).Safe blob n := by
          have hwithin := (h.reg r rfl).mono hlong.2
          rw [Slice.Within] at hwithin
          rw [pair_safe_iff]
          omega
        rw [Nat.zero_add] at hpair
        rw [safe_bind, safe_bind, safe_bind]
        exact ⟨hpair.1, hpair.2, irq_in h.interrupts, safe_pure _⟩
      · refine returns_bind _ fun found => ?_
        split_ifs
        · exact returns_pure h
        · exact returns_bind _ fun base => returns_bind _ fun size => returns_bind _ fun irq =>
            returns_pure ⟨by simp [forget], by simp [forget], by simp [forget]⟩

/-- What the body reads of the value of a property. -/
theorem prop_safe_iff {c : String} {s : Devices Slice DeviceNode} {depth : ℕ} {name : String} {value : Slice} :
    (s.on c (.prop depth name value)).Safe blob n ↔ (Event.prop depth name value).CellsIn blob := by
  rw [on, Event.CellsIn]
  split_ifs with h₁ h₂ h₃ h₄ h₅
  · obtain ⟨hdepth, hname, hlen⟩ := h₁
    simp [Slice.Within, hdepth, hname, hlen]
  · obtain ⟨hdepth, hname, hlen⟩ := h₂
    simp [Slice.Within, hdepth, hname, hlen]
  all_goals
    refine iff_of_true (safe_pure _) fun hdepth hname hlen => ?_
    obtain hname | hname := hname
    · exact absurd ⟨hdepth, hname, hlen⟩ h₁
    · exact absurd ⟨hdepth, hname, hlen⟩ h₂

theorem prop_in {c : String} {s : Devices Slice DeviceNode} {depth : ℕ} {name : String} {value : Slice}
    (h : s.In blob) (hvalue : value.Within blob value.len) :
    (s.on c (.prop depth name value)).Returns (In blob) := by
  rw [on]
  split_ifs
  · exact returns_bind _ fun _ => returns_pure { h with }
  · exact returns_bind _ fun _ => returns_pure { h with }
  · exact returns_pure { h with compat := fun v hv => Option.some.inj hv ▸ hvalue }
  · exact returns_pure { h with reg := fun v hv => Option.some.inj hv ▸ hvalue }
  · exact returns_pure { h with interrupts := fun v hv => Option.some.inj hv ▸ hvalue }
  · exact returns_pure h

theorem body_safe {c : String} {room : ℕ} {s : Devices Slice DeviceNode} (w : Walker) {ev : Event}
    (h : s.In blob) (hcells : ev.CellsIn blob) : (body c room s w ev).Safe blob n := by
  rw [body]
  split_ifs
  · exact safe_pure _
  · rw [safe_bind]
    refine ⟨?_, safe_pure _⟩
    cases ev with
    | beginNode depth name => exact safe_pure _
    | endNode => exact (endNode_in h).1
    | prop depth name value => exact prop_safe_iff.mpr hcells

theorem body_in {c : String} {room : ℕ} (s : Devices Slice DeviceNode) (w : Walker) (ev : Event)
    (h : s.In blob) (hev : ev.In blob) : (body c room s w ev).Safe blob n ∧
      ∀ s', (body c room s w ev).value blob = .inl s' → s'.In blob := by
  refine ⟨body_safe w h hev.cells, ?_⟩
  have hon : (s.on c ev).Returns (In blob) := by
    cases ev with
    | beginNode depth name => exact returns_pure ⟨nofun, nofun, nofun⟩
    | endNode => exact (endNode_in (n := n) h).2
    | prop depth name value => exact prop_in h hev
  rw [body]
  split_ifs
  · exact nofun
  · rw [value_bind]
    exact fun s' hs' => Sum.inl.inj hs' ▸ hon.value

end Devices

namespace PropOf

/-- The values that are looked at lie in the blob. -/
def In (blob : List UInt8) (s : PropOf) : Prop := ∀ v, s.curCompat = some v → v.Within blob v.len

theorem look_in {c : String} {s : PropOf} (h : s.In blob) : (look c s).Safe blob n := by
  obtain ⟨compat, val⟩ := s
  cases compat with
  | none => exact safe_pure _
  | some v =>
    cases val with
    | none => exact safe_pure _
    | some val =>
      rw [look, safe_bind, safe_ite]
      exact ⟨compatMatches_safe (h v rfl) c, fun _ => safe_pure _, fun _ => safe_pure _⟩

/-- The check changes nothing. -/
theorem look_value {c : String} {s : PropOf} : (look c s).Returns fun r => ∀ s', r = .inl s' → s' = s := by
  obtain ⟨compat, val⟩ := s
  cases compat with
  | none => exact returns_pure fun s' hs' => (Sum.inl.inj hs').symm
  | some v =>
    cases val with
    | none => exact returns_pure fun s' hs' => (Sum.inl.inj hs').symm
    | some val =>
      rw [look]
      refine returns_bind _ fun found => ?_
      split_ifs
      · exact returns_pure nofun
      · exact returns_pure fun s' hs' => (Sum.inl.inj hs').symm

/-- What the body reads of the value of a property. -/
theorem prop_safe_iff {c prop : String} {s : PropOf} {w : Walker} {depth : ℕ} {name : String} {value : Slice}
    (h : s.In blob) : (body c prop s w (.prop depth name value)).Safe blob n ↔
      (name = "compatible" → s.curVal.isSome → (compatMatches value c).Safe blob n) := by
  obtain ⟨compat, val⟩ := s
  rw [body]
  split_ifs with h₁ h₂
  · rw [forall_prop_of_true h₁]
    cases val with
    | none => exact iff_of_true (safe_pure _) nofun
    | some val =>
      rw [look, safe_bind, safe_ite]
      exact ⟨fun hsafe _ => hsafe.1, fun hsafe => ⟨hsafe rfl, fun _ => safe_pure _, fun _ => safe_pure _⟩⟩
  · exact iff_of_true (look_in h) fun hname => absurd hname h₁
  · exact iff_of_true (look_in h) fun hname => absurd hname h₁

theorem body_in {c prop : String} (s : PropOf) (w : Walker) (ev : Event) (h : s.In blob)
    (hev : ev.In blob) : (body c prop s w ev).Safe blob n ∧
      ∀ s', (body c prop s w ev).value blob = .inl s' → s'.In blob := by
  cases ev with
  | beginNode depth name => exact ⟨safe_pure _, fun s' hs' => Sum.inl.inj hs' ▸ nofun⟩
  | endNode => exact ⟨safe_pure _, fun s' hs' => Sum.inl.inj hs' ▸ h⟩
  | prop depth name value =>
    refine ⟨(prop_safe_iff h).mpr fun _ _ => compatMatches_safe hev c, ?_⟩
    rw [body]
    split_ifs
    · exact fun s' hs' => look_value.value s' hs' ▸ fun v hv => Option.some.inj hv ▸ hev
    · exact fun s' hs' => look_value.value s' hs' ▸ h
    · exact fun s' hs' => look_value.value s' hs' ▸ h

/-- There is a value exactly if the node has had the property. -/
theorem names_step {c prop : String} (s : PropOf) (names : List String) (w : Walker) (ev : Event) (s' : PropOf)
    (h : s.curVal.isSome ↔ prop ≠ "compatible" ∧ prop ∈ names)
    (hnext : (body c prop s w ev).value blob = .inl s') :
    s'.curVal.isSome ↔ prop ≠ "compatible" ∧ prop ∈ ev.names names := by
  cases ev with
  | beginNode depth name =>
    obtain rfl := Sum.inl.inj hnext
    exact iff_of_false nofun nofun
  | endNode =>
    obtain rfl := Sum.inl.inj hnext
    exact h
  | prop depth name value =>
    rw [Event.names, List.mem_cons]
    rw [body] at hnext
    split_ifs at hnext with h₁ h₂
    · obtain rfl := look_value.value s' hnext
      rw [h]
      exact and_congr_right fun hne => (or_iff_right fun heq => hne (heq.trans h₁)).symm
    · obtain rfl := look_value.value s' hnext
      exact iff_of_true rfl ⟨fun heq => h₁ (h₂.trans heq), Or.inl h₂.symm⟩
    · obtain rfl := look_value.value s' hnext
      rw [h]
      exact and_congr_right fun _ => (or_iff_right fun heq => h₂ heq.symm).symm

theorem behind_names {c prop : String} {init : List (Event × Walker)} {s : PropOf}
    (h : behind (body c prop) blob PropOf.new init = some s) :
    s.curVal.isSome ↔ prop ≠ "compatible" ∧ prop ∈ init.foldl (fun names e => e.1.names names) [] :=
  behind_inv (fun (s : PropOf) names => s.curVal.isSome ↔ prop ≠ "compatible" ∧ prop ∈ names) names_step init
    (iff_of_false (by decide) (fun h => List.not_mem_nil h.2)) h

theorem in_new : PropOf.In blob PropOf.new := by
  intro v hv
  cases hv

theorem look_long {c : String} (hc : blob.length < (asBytes c).length) {s : PropOf} (h : s.In blob) :
    (look c s).value blob = .inl s := by
  obtain ⟨compat, val⟩ := s
  cases compat with
  | none => rfl
  | some v =>
    cases val with
    | none => rfl
    | some val =>
      rw [look, value_bind, (compatMatches_long (n := 0) hc v).2 (h v rfl)]
      rfl

/-- The search for a string that is longer than the blob goes on. -/
theorem goes_on {c prop : String} (hc : blob.length < (asBytes c).length) (s : PropOf) (w : Walker)
    (ev : Event) (h : s.In blob) (hev : ev.In blob) :
    ∃ s', (body c prop s w ev).value blob = .inl s' ∧ s'.In blob := by
  cases ev with
  | beginNode depth name => exact ⟨_, rfl, nofun⟩
  | endNode => exact ⟨_, rfl, h⟩
  | prop depth name value =>
    have hcompat : In blob { s with curCompat := some value } := fun v hv => Option.some.inj hv ▸ hev
    rw [body]
    split_ifs
    · exact ⟨_, look_long hc hcompat, hcompat⟩
    · exact ⟨_, look_long hc h, h⟩
    · exact ⟨_, look_long hc h, h⟩

end PropOf

namespace Cpus

/-- What the body reads of the value of a property. -/
theorem prop_safe_iff {room : ℕ} {s : Cpus} {w : Walker} {depth : ℕ} {name : String} {value : Slice} :
    (body room s w (.prop depth name value)).Safe blob n ↔
      (depth = 2 → name = "#address-cells" → s.inCpus → 4 ≤ value.len → value.Within blob 4) ∧
        (depth = 3 → name = "reg" → s.inCpus → s.out.length < room → s.cells * 4 ≤ value.len →
          value.Within blob (s.cells * 4)) := by
  rw [body]
  split_ifs with h₁ h₂ h₃
  · obtain ⟨rfl, rfl, hcpus, hlen⟩ := h₁
    simp [Slice.Within, hcpus, hlen]
  · obtain ⟨rfl, rfl, hcpus⟩ := h₂
    have hread : (readCells value 0 s.cells).Safe blob n ↔ value.Within blob (s.cells * 4) := by
      rw [readCells_safe_iff, Slice.Within]
      omega
    rw [safe_bind, hread]
    exact ⟨fun h => ⟨by simp, fun _ _ _ _ _ => h.1⟩, fun h => ⟨h.2 rfl rfl hcpus h₃.1 h₃.2, safe_pure _⟩⟩
  · obtain ⟨rfl, rfl, hcpus⟩ := h₂
    exact iff_of_true (safe_pure _) ⟨by simp, fun _ _ _ hroom hlen => absurd ⟨hroom, hlen⟩ h₃⟩
  · exact iff_of_true (safe_pure _) ⟨fun hdepth hname hcpus hlen => absurd ⟨hdepth, hname, hcpus, hlen⟩ h₁,
      fun hdepth hname hcpus => absurd ⟨hdepth, hname, hcpus⟩ h₂⟩

theorem body_in {room : ℕ} (s : Cpus) (w : Walker) (ev : Event) (hev : ev.In blob) :
    (body room s w ev).Safe blob n := by
  cases ev with
  | beginNode depth name =>
    rw [body]
    split_ifs <;> exact safe_pure _
  | endNode => exact safe_pure _
  | prop depth name value =>
    exact prop_safe_iff.mpr ⟨fun _ _ _ hlen => Slice.Within.mono hev hlen,
      fun _ _ _ _ hlen => Slice.Within.mono hev hlen⟩

end Cpus

/-- The blob, in a memory that is zero behind it. -/
def inMemory (blob : List UInt8) (i : ℕ) : UInt8 := blob.getD i default

theorem Event.In.memoryReg {ev : Event} {reg : Slice} (h : ev.In blob) (hreg : ev.memoryReg w = some reg) :
    reg.Within blob reg.len := by
  cases ev with
  | beginNode => cases hreg
  | endNode => cases hreg
  | prop depth name value =>
    rw [Event.memoryReg, Option.ite_none_right_eq_some] at hreg
    obtain ⟨-, heq⟩ := hreg
    exact Option.some.inj heq ▸ h

namespace MemoryRegions

variable {s : MemoryRegions} {reg : Slice} {cursor a z : ℕ}

/-- All turns of the iteration from a state on read the blob only. -/
def Stays (f : Fdt) (blob : List UInt8) (n : ℕ) (s : MemoryRegions) : Prop :=
  ∀ fuel, (s.iterate f fuel).Safe blob n

theorem iterate_succ_safe (fuel : ℕ) : (s.iterate f (fuel + 1)).Safe blob n ↔ (s.turn f).Safe blob n ∧
    (((s.turn f).value blob).1 ≠ .done → (((s.turn f).value blob).2.iterate f fuel).Safe blob n) := by
  rw [iterate, safe_bind]
  rcases (s.turn f).value blob with ⟨_ | _ | _, s'⟩ <;> simp

theorem stays_turn : Stays f blob n s ↔ (s.turn f).Safe blob n ∧
    (((s.turn f).value blob).1 ≠ .done → Stays f blob n ((s.turn f).value blob).2) := by
  constructor
  · intro h
    exact ⟨((iterate_succ_safe 0).mp (h 1)).1, fun hgoes fuel =>
      ((iterate_succ_safe fuel).mp (h (fuel + 1))).2 hgoes⟩
  · rintro ⟨hsafe, hrest⟩ fuel
    cases fuel with
    | zero => exact safe_pure _
    | succ fuel => exact (iterate_succ_safe fuel).mpr ⟨hsafe, fun hgoes => hrest hgoes fuel⟩

theorem turn_pair_safe (h : cursor + (a + z) * 4 ≤ reg.len) :
    ((⟨w, some (reg, cursor), a, z⟩ : MemoryRegions).turn f).Safe blob n ↔
      a + z = 0 ∨ reg.pos + cursor + (a + z) * 4 ≤ blob.length := by
  rw [turn]
  dsimp only
  rw [if_pos h, safe_bind, safe_bind, ← and_assoc, pair_safe_iff]
  refine and_iff_left ?_
  split_ifs <;> exact safe_pure _

theorem turn_pair_value (f : Fdt) (blob : List UInt8) (w : Walker) (h : cursor + (a + z) * 4 ≤ reg.len) :
    (((⟨w, some (reg, cursor), a, z⟩ : MemoryRegions).turn f).value blob).1 ≠ .done ∧
      (((⟨w, some (reg, cursor), a, z⟩ : MemoryRegions).turn f).value blob).2 =
        ⟨w, some (reg, cursor + (a + z) * 4), a, z⟩ := by
  rw [← eval_getD]
  exact turn_pair f _ w h

/-- A turn that goes on to an event reads a number of cells, if the event declares one. -/
theorem turn_event_safe {ev : Event} (hsafe : (w.nextEvent f).Safe blob n)
    (hvalue : (w.nextEvent f).value blob = (some ev, w')) :
    ((⟨w, none, a, z⟩ : MemoryRegions).turn f).Safe blob n ↔ ev.CellsIn blob := by
  rw [turn, advance, safe_bind, and_iff_right hsafe]
  dsimp only
  rw [hvalue]
  cases ev with
  | beginNode depth name => exact iff_of_true (safe_pure _) trivial
  | endNode => exact iff_of_true (safe_pure _) trivial
  | prop depth name value =>
    dsimp only
    rw [Event.CellsIn]
    split_ifs with h₁ h₂ h₃
    · obtain ⟨hdepth, hname, hlen⟩ := h₁
      simp [Slice.Within, hdepth, hname, hlen]
    · obtain ⟨hdepth, hname, hlen⟩ := h₂
      simp [Slice.Within, hdepth, hname, hlen]
    all_goals
      refine iff_of_true (safe_pure _) fun hdepth hname hlen => ?_
      obtain hname | hname := hname
      · exact absurd ⟨hdepth, hname, hlen⟩ h₁
      · exact absurd ⟨hdepth, hname, hlen⟩ h₂

/-- What is left of a `reg` is read pair by pair. -/
theorem stays_drain (f : Fdt) (blob : List UInt8) (w : Walker) (reg : Slice) (hstride : 0 < a + z) (k : ℕ) :
    ∀ {m : ℕ}, reg.len < (m + k) * ((a + z) * 4) →
      (Stays f blob n ⟨w, some (reg, m * ((a + z) * 4)), a, z⟩ ↔
        PairsIn blob reg a z m ∧ Stays f blob n ⟨w, none, a, z⟩) := by
  induction k with
  | zero =>
    intro m hlen
    have hlast : reg.len < (m + 1) * ((a + z) * 4) := hlen.trans_le (Nat.mul_le_mul_right _ (by omega))
    rw [and_iff_right (pairsIn_of_lt hlast), stays_turn, turn_drained (by rw [← Nat.add_one_mul]; omega),
      ← stays_turn]
  | succ k ih =>
    intro m hlen
    by_cases h : (m + 1) * ((a + z) * 4) ≤ reg.len
    · have hstep : m * ((a + z) * 4) + (a + z) * 4 ≤ reg.len := by rwa [← Nat.succ_mul]
      obtain ⟨hgoes, hnext⟩ := turn_pair_value f blob w hstep
      have hrest := ih (m := m + 1) (by rwa [Nat.succ_add_eq_add_succ])
      rw [stays_turn, turn_pair_safe hstep, hnext, ← Nat.succ_mul, hrest, pairsIn_succ h,
        forall_prop_of_true hgoes, or_iff_right (by omega), Nat.succ_mul, Nat.add_assoc, and_assoc]
    · rw [and_iff_right (pairsIn_of_lt (Nat.not_le.mp h)), stays_turn,
        turn_drained (by rw [← Nat.add_one_mul]; omega), ← stays_turn]

theorem stays_of_zero : Stays f blob n ⟨w, some (reg, 0), 0, 0⟩ := by
  obtain ⟨-, hnext⟩ := turn_pair_value f blob w
    (show 0 + (0 + 0) * 4 ≤ reg.len from Nat.zero_le _)
  intro fuel
  induction fuel with
  | zero => exact safe_pure _
  | succ fuel ih =>
    refine (iterate_succ_safe fuel).mpr ⟨(turn_pair_safe (Nat.zero_le _)).mpr (Or.inl rfl), fun _ => ?_⟩
    rw [hnext]
    exact ih

/-- What the iteration reads of the values of the events that are left. -/
def MemoryIn (blob : List UInt8) : (cells : ℕ × ℕ) → List (Event × Walker) → Prop
  | _, [] => True
  | cells, (ev, w) :: evs => ev.CellsIn blob ∧
    match ev.memoryReg w with
    | some reg => cells ≠ (0, 0) →
      reg.Within blob (whole cells.1 cells.2 reg.len) ∧ MemoryIn blob cells evs
    | none => MemoryIn blob (ev.declare (inMemory blob) cells) evs

theorem stays_iff (h : Yields f blob n w evs) : ∀ {a z : ℕ},
    Stays f blob n ⟨w, none, a, z⟩ ↔ MemoryIn blob (a, z) evs := by
  induction h with
  | @done w hsafe hvalue =>
    intro a z
    rcases hnext : (w.nextEvent f).value blob with ⟨_ | ev, w'⟩
    · refine iff_of_true (stays_turn.mpr ⟨?_, fun hgoes => absurd ?_ hgoes⟩) trivial
      · rw [turn, advance, safe_bind, and_iff_right hsafe, hnext]
        exact safe_pure _
      · rw [← eval_getD] at hnext ⊢
        exact turn_end hnext
    · rw [hnext] at hvalue
      cases hvalue
  | @next w w' ev evs hsafe hvalue _ ih =>
    intro a z
    have hturn : ((⟨w, none, a, z⟩ : MemoryRegions).turn f).value blob = (.again,
        ⟨w', (ev.memoryReg w').map fun reg => (reg, 0), (ev.declare (inMemory blob) (a, z)).1,
          (ev.declare (inMemory blob) (a, z)).2⟩) := by
      rw [← eval_getD] at hvalue ⊢
      exact turn_event hvalue
    rw [stays_turn, turn_event_safe hsafe hvalue, hturn, forall_prop_of_true (by simp), MemoryIn]
    refine and_congr_right fun _ => ?_
    cases hreg : ev.memoryReg w' with
    | none => exact ih
    | some reg =>
      rw [declare_of_memoryReg hreg]
      by_cases hzero : a = 0 ∧ z = 0
      · obtain ⟨rfl, rfl⟩ := hzero
        exact iff_of_true stays_of_zero fun h => absurd rfl h
      · have hcells : (a, z) ≠ (0, 0) := fun h => hzero (Prod.mk.inj h)
        have hstride : 0 < a + z := by omega
        have hdrain := stays_drain (n := n) f blob w' reg hstride (reg.len + 1)
          (m := 0) (by rw [Nat.zero_add]; exact Nat.le_mul_of_pos_right _ (by omega))
        rw [Nat.zero_mul] at hdrain
        dsimp only
        rw [forall_prop_of_true hcells, within_whole_iff hstride, ← ih]
        exact hdrain

/-- All depends on the last event, unless the iteration does not come to it. -/
theorem memoryIn_append {last : Event × Walker} (init : List (Event × Walker)) : ∀ {cells : ℕ × ℕ},
    (∀ e ∈ init, e.1.In blob) → (MemoryIn blob cells (init ++ [last]) ↔
      (¬Stalls (inMemory blob) cells init →
        MemoryIn blob (init.foldl (fun cells e => e.1.declare (inMemory blob) cells) cells) [last])) := by
  induction init with
  | nil => exact fun _ => ⟨fun h _ => h, fun h => h not_false⟩
  | cons e init ih =>
    intro cells hinit
    obtain ⟨he, hinit⟩ := List.forall_mem_cons.mp hinit
    rw [List.cons_append, MemoryIn, and_iff_right he.cells, Stalls, List.foldl_cons]
    cases hreg : e.1.memoryReg e.2 with
    | none => simpa using ih hinit
    | some reg =>
      have hin := he.memoryReg hreg
      rw [declare_of_memoryReg hreg]
      by_cases hzero : cells = (0, 0)
      · exact iff_of_true (fun h => absurd hzero h) fun h => absurd (Or.inl ⟨hzero, rfl⟩) h
      · simp only [ne_eq, hzero, not_false_eq_true, forall_const, false_and, false_or]
        rw [and_iff_right (hin.mono (whole_le _ _ _))]
        exact ih hinit

end MemoryRegions

end

end JungeyOs.Dtb
