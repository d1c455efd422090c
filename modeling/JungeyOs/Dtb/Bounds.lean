import JungeyOs.Dtb.Bodies

/-!
# Reads outside the blob

When the functions of `kernel/src/dtb.rs` read nothing but the blob, the first `total_size` bytes, whatever
they are called for (lines 65–111, 136–303 and 342–447).

Results:
* `Confined.lastFits`, `confined_of_fits`: the two directions.
* `confined_blob_iff`: the condition on the blob.
-/

namespace JungeyOs.Dtb

open Bytes Reads
open Jlfs (asBytes)

section

variable {blob : List UInt8} {n : ℕ} {f : Fdt} {w : Walker}

/-! ## The condition -/

/-- `next_event`, call after call up to the one that returns `None`. -/
def Fdt.walk (f : Fdt) : Reads UInt8 Unit :=
  scan f (fun _ _ _ => pure (.inl ())) (fun _ => ()) f.structSize Walker.new ()

/-- With `rest` behind the blob, the program reads the blob only and comes to its end. -/
def StaysIn {α : Type} (blob rest : List UInt8) (p : Reads UInt8 α) : Prop :=
  (∀ i ∈ (p.run (blob ++ rest)).1, i < blob.length) ∧ (p.run (blob ++ rest)).2.isSome

/-- All functions read the blob only, whatever they look for. -/
structure Confined (f : Fdt) (blob rest : List UInt8) : Prop where
  walk : StaysIn blob rest f.walk
  nodeRegs : ∀ c room, StaysIn blob rest (f.nodeRegs c room)
  devices : ∀ c room, StaysIn blob rest (f.devices c room)
  propOf : ∀ c prop, StaysIn blob rest (f.propOf c prop)
  cpus : ∀ room, StaysIn blob rest (f.cpus room)
  memoryRegions : ∀ turns, StaysIn blob rest (MemoryRegions.new.iterate f turns)

/-- What is looked at of the value of the last property lies in the blob. -/
structure LastFits (blob : List UInt8) (init : List (Event × Walker)) (depth : ℕ) (name : String)
    (value : Slice) (w : Walker) : Prop where
  cells : depth = 1 → name = "#address-cells" ∨ name = "#size-cells" → 4 ≤ value.len → value.Within blob 4
  compatible : name = "compatible" →
    (∃ other ∈ init.foldl (fun names e => e.1.names names) [], other ≠ "compatible") →
      value.Within blob value.len
  nodeRegs : name = "reg" → ∀ c room s v, behind (NodeRegs.body c room) blob NodeRegs.new init = some s →
    s.curCompat = some v → (compatMatches v c).value blob = true →
      value.Within blob (whole s.addrCells s.sizeCells value.len)
  cpuCells : depth = 2 → name = "#address-cells" → ∀ room s,
    behind (Cpus.body room) blob Cpus.new init = some s → s.inCpus → 4 ≤ value.len → value.Within blob 4
  cpus : depth = 3 → name = "reg" → ∀ room s, behind (Cpus.body room) blob Cpus.new init = some s →
    s.inCpus → s.out.length < room → s.cells * 4 ≤ value.len → value.Within blob (s.cells * 4)
  memoryRegions : name = "reg" → w.inMemoryNode → ¬Stalls (inMemory blob) (2, 2) init →
    let cells := init.foldl (fun cells e => e.1.declare (inMemory blob) cells) (2, 2)
    value.Within blob (whole cells.1 cells.2 value.len)

theorem staysIn_iff {α : Type} {rest : List UInt8} (p : Reads UInt8 α) :
    StaysIn blob rest p ↔ p.Safe blob (blob ++ rest).length := mem_reads_and_isSome_iff p

/-- A walk that stays in the blob gives events and then `None`. -/
theorem yields_of_walk (fuel : ℕ) : ∀ {w : Walker}, f.structSize ≤ w.pos + fuel →
    (scan f (fun _ _ _ => pure (.inl ())) (fun _ => ()) fuel w () : Reads UInt8 Unit).Safe blob n →
      ∃ evs, Yields f blob n w evs := by
  induction fuel with
  | zero =>
    intro w hfuel _
    have hend := Walker.nextEvent_end (show f.structSize < w.pos + 4 by omega)
    exact ⟨[], .done (by rw [hend]; exact safe_pure _) (by rw [hend]; rfl)⟩
  | succ fuel ih =>
    intro w hfuel hsafe
    rw [scan, safe_bind] at hsafe
    obtain ⟨hnext, hrest⟩ := hsafe
    rcases hvalue : (w.nextEvent f).value blob with ⟨_ | ev, w'⟩
    · exact ⟨[], .done hnext (by rw [hvalue])⟩
    · have htook : Walker.Took f w ((w.nextEvent f).value blob) := (Walker.nextEvent_took f w).value
      rw [hvalue] at htook hrest
      obtain ⟨-, hpos⟩ : w.pos + 4 ≤ f.structSize ∧ w.pos + 4 ≤ w'.pos := htook rfl
      obtain ⟨evs, hyields⟩ := ih (w := w') (by omega) hrest
      exact ⟨_, .next hnext hvalue hyields⟩

section

variable {σ ρ : Type} {body : σ → Walker → Event → Reads UInt8 (σ ⊕ ρ)} {result : σ → ρ}
  {init : List (Event × Walker)} {last : Event × Walker}

/-- A loop over the whole blob, by what its body reads at the last event. -/
theorem loop_safe_iff (hblob : blob.length < 2 ^ 64) (h : Parses f blob Walker.new (init ++ [last]))
    (I : σ → Prop) (hin : ∀ s w ev, I s → ev.In blob → (body s w ev).Safe blob n ∧
      ∀ s', (body s w ev).value blob = .inl s' → I s') {s : σ} (hs : I s) :
    ((scan f body result f.structSize Walker.new s).Safe blob n ↔
      ∀ s', behind body blob s init = some s' → (body s' last.2 last.1).Safe blob n) ∧
        ∀ s', behind body blob s init = some s' → I s' := by
  obtain ⟨hsafe, hinv⟩ := bodies_append I (Event.In blob) hin last init hs (h.init_in rfl)
  exact ⟨(scan_safe_iff (h.yields hblob) (Nat.le_add_left _ _)).trans hsafe, hinv⟩

end

section

variable {rest : List UInt8} {init : List (Event × Walker)} {last : Event × Walker} {depth : ℕ}
  {name : String} {value : Slice}

theorem nodeRegs_safe_iff (hblob : blob.length < 2 ^ 64) (h : Parses f blob Walker.new (init ++ [last]))
    (c : String) (room : ℕ) :
    ((f.nodeRegs c room).Safe blob n ↔ ∀ s, behind (NodeRegs.body c room) blob NodeRegs.new init = some s →
      (NodeRegs.body c room s last.2 last.1).Safe blob n) ∧
        ∀ s, behind (NodeRegs.body c room) blob NodeRegs.new init = some s → s.In blob :=
  loop_safe_iff hblob h (NodeRegs.In blob) NodeRegs.body_in ⟨nofun, nofun⟩

theorem devices_safe_iff (hblob : blob.length < 2 ^ 64) (h : Parses f blob Walker.new (init ++ [last]))
    (c : String) (room : ℕ) :
    ((f.devices c room).Safe blob n ↔ ∀ s, behind (Devices.body c room) blob Devices.new init = some s →
      (Devices.body c room s last.2 last.1).Safe blob n) ∧
        ∀ s, behind (Devices.body c room) blob Devices.new init = some s → s.In blob :=
  loop_safe_iff hblob h (Devices.In blob) Devices.body_in ⟨nofun, nofun, nofun⟩

theorem propOf_safe_iff (hblob : blob.length < 2 ^ 64) (h : Parses f blob Walker.new (init ++ [last]))
    (c prop : String) :
    ((f.propOf c prop).Safe blob n ↔ ∀ s, behind (PropOf.body c prop) blob PropOf.new init = some s →
      (PropOf.body c prop s last.2 last.1).Safe blob n) ∧
        ∀ s, behind (PropOf.body c prop) blob PropOf.new init = some s → s.In blob :=
  loop_safe_iff hblob h (PropOf.In blob) PropOf.body_in PropOf.in_new

theorem cpus_safe_iff (hblob : blob.length < 2 ^ 64) (h : Parses f blob Walker.new (init ++ [last]))
    (room : ℕ) :
    (f.cpus room).Safe blob n ↔ ∀ s, behind (Cpus.body room) blob Cpus.new init = some s →
      (Cpus.body room s last.2 last.1).Safe blob n :=
  (loop_safe_iff hblob h (fun _ => True) (fun s w ev _ hev => ⟨Cpus.body_in s w ev hev, fun _ _ => trivial⟩)
    trivial).1

/-- What the functions read of the last value lies in the blob, if they read the blob only. -/
theorem Confined.lastFits (hblob : blob.length < 2 ^ 64) (h : Confined f blob rest)
    (hparses : Parses f blob Walker.new (init ++ [(.prop depth name value, w)])) :
    LastFits blob init depth name value w := by
  obtain ⟨c, hc⟩ := exists_long blob.length
  have hinit := hparses.init_in rfl
  refine ⟨?_, ?_, ?_, ?_, ?_, ?_⟩
  · -- a string that no list has takes `node_regs` to the last event
    obtain ⟨hsafe, hin⟩ := nodeRegs_safe_iff (n := (blob ++ rest).length) hblob hparses c 0
    obtain ⟨s, hs⟩ : ∃ s, behind (NodeRegs.body c 0) blob NodeRegs.new init = some s :=
      behind_isSome (NodeRegs.In blob) (Event.In blob) (NodeRegs.goes_on hc) init ⟨nofun, nofun⟩ hinit
    have hlast := hsafe.mp ((staysIn_iff _).mp (h.nodeRegs c 0)) s hs
    exact ((NodeRegs.prop_safe_iff (hin s hs)).mp hlast).1
  · rintro hname ⟨other, hmem, hne⟩
    obtain ⟨hsafe, hin⟩ := propOf_safe_iff (n := (blob ++ rest).length) hblob hparses c other
    obtain ⟨s, hs⟩ : ∃ s, behind (PropOf.body c other) blob PropOf.new init = some s :=
      behind_isSome (PropOf.In blob) (Event.In blob) (PropOf.goes_on hc) init PropOf.in_new hinit
    have hnames := PropOf.behind_names hs
    have hlast := hsafe.mp ((staysIn_iff _).mp (h.propOf c other)) s hs
    have hread := (PropOf.prop_safe_iff (hin s hs)).mp hlast hname (hnames.mpr ⟨hne, hmem⟩)
    exact (compatMatches_long hc value).1.mp hread
  · intro hname c room s v hs hv hfound
    refine NodeRegs.pairs_safe_iff (n := (blob ++ rest).length).mp fun room' => ?_
    obtain ⟨hsafe, hin⟩ := nodeRegs_safe_iff (n := (blob ++ rest).length) hblob hparses c room'
    have hs' := NodeRegs.behind_room room room' init hs
    have hlast := hsafe.mp ((staysIn_iff _).mp (h.nodeRegs c room')) s hs'
    exact ((NodeRegs.prop_safe_iff (hin s hs')).mp hlast).2.2 hname v hv hfound
  · intro hdepth hname room s hs hcpus hlen
    have hlast := (cpus_safe_iff hblob hparses room).mp ((staysIn_iff _).mp (h.cpus room)) s hs
    exact (Cpus.prop_safe_iff.mp hlast).1 hdepth hname hcpus hlen
  · intro hdepth hname room s hs hcpus hroom hlen
    have hlast := (cpus_safe_iff hblob hparses room).mp ((staysIn_iff _).mp (h.cpus room)) s hs
    exact (Cpus.prop_safe_iff.mp hlast).2 hdepth hname hcpus hroom hlen
  · intro hname hmemory hstalls cells
    have hstays : MemoryRegions.Stays f blob (blob ++ rest).length MemoryRegions.new :=
      fun turns => (staysIn_iff _).mp (h.memoryRegions turns)
    have hall := (MemoryRegions.stays_iff (hparses.yields hblob)).mp hstays
    have hlast := (MemoryRegions.memoryIn_append init hinit).mp hall hstalls
    have hreg : (Event.prop depth name value).memoryReg w = some value := if_pos ⟨hname, hmemory⟩
    rw [MemoryRegions.MemoryIn, hreg] at hlast
    by_cases hzero : cells = (0, 0)
    · rw [hzero]
      exact Or.inl (Nat.mul_zero _)
    · exact (hlast.2 hzero).1

/-! ## The last value -/

theorem LastFits.nodeRegs_safe (h : LastFits blob init depth name value w) {c : String} {room : ℕ}
    {s : NodeRegs Slice} (hs : behind (NodeRegs.body c room) blob NodeRegs.new init = some s)
    (hin : s.In blob) : (NodeRegs.body c room s w (.prop depth name value)).Safe blob n := by
  refine (NodeRegs.prop_safe_iff hin).mpr ⟨h.cells, fun hname hreg => ?_, fun hname v hv hfound => ?_⟩
  · have hother : "reg" ∈ init.foldl (fun names e => e.1.names names) [] := NodeRegs.behind_names hs hreg
    exact compatMatches_safe (h.compatible hname ⟨_, hother, by decide⟩) c
  · exact NodeRegs.pairs_safe_iff.mpr (h.nodeRegs hname c room s v hs hv hfound) room

theorem LastFits.propOf_safe (h : LastFits blob init depth name value w) {c prop : String} {s : PropOf}
    (hs : behind (PropOf.body c prop) blob PropOf.new init = some s) (hin : s.In blob) :
    (PropOf.body c prop s w (.prop depth name value)).Safe blob n := by
  refine (PropOf.prop_safe_iff hin).mpr fun hname hval => ?_
  obtain ⟨hne, hother⟩ := (PropOf.behind_names hs).mp hval
  exact compatMatches_safe (h.compatible hname ⟨_, hother, hne⟩) c

theorem LastFits.cpus_safe (h : LastFits blob init depth name value w) {room : ℕ} {s : Cpus}
    (hs : behind (Cpus.body room) blob Cpus.new init = some s) :
    (Cpus.body room s w (.prop depth name value)).Safe blob n :=
  Cpus.prop_safe_iff.mpr ⟨fun hdepth hname => h.cpuCells hdepth hname room s hs,
    fun hdepth hname => h.cpus hdepth hname room s hs⟩

theorem LastFits.memoryIn (h : LastFits blob init depth name value w)
    (hstalls : ¬Stalls (inMemory blob) (2, 2) init) :
    MemoryRegions.MemoryIn blob (init.foldl (fun cells e => e.1.declare (inMemory blob) cells) (2, 2))
      [(.prop depth name value, w)] := by
  refine ⟨h.cells, ?_⟩
  rw [Event.memoryReg]
  split_ifs with hreg
  · exact fun _ => ⟨h.memoryRegions hreg.1 hreg.2 hstalls, trivial⟩
  · trivial

/-! ## The whole blob -/

/-- Without events no body runs. -/
theorem confined_of_nil (h : ∀ n, Yields f blob n Walker.new []) : Confined f blob rest := by
  have hloop {σ ρ : Type} (body : σ → Walker → Event → Reads UInt8 (σ ⊕ ρ)) (result : σ → ρ) (s : σ) :
      StaysIn blob rest (scan f body result f.structSize Walker.new s) :=
    (staysIn_iff _).mpr ((scan_safe_iff (h _) (Nat.le_add_left _ _)).mpr trivial)
  have hstays : MemoryRegions.Stays f blob (blob ++ rest).length MemoryRegions.new :=
    (MemoryRegions.stays_iff (h _)).mpr trivial
  exact ⟨hloop _ _ _, fun _ _ => hloop _ _ _, fun _ _ => hloop _ _ _, fun _ _ => hloop _ _ _,
    fun _ => hloop _ _ _, fun turns => (staysIn_iff _).mpr (hstays turns)⟩

/-- The values of the last event are read within the blob. -/
theorem confined_of_fits (hblob : blob.length < 2 ^ 64) {evs : List (Event × Walker)}
    (hparses : Parses f blob Walker.new evs)
    (hlast : ∀ init depth name value w, evs = init ++ [(.prop depth name value, w)] →
      LastFits blob init depth name value w) : Confined f blob rest := by
  have hyields (n : ℕ) : Yields f blob n Walker.new evs := hparses.yields hblob
  obtain rfl | ⟨init, ⟨ev, w⟩, rfl⟩ := evs.eq_nil_or_concat'
  · exact confined_of_nil hyields
  have hinit := hparses.init_in rfl
  refine ⟨?_, fun c room => ?_, fun c room => ?_, fun c prop => ?_, fun room => ?_, fun turns => ?_⟩
  all_goals rw [staysIn_iff]
  · refine (loop_safe_iff hblob hparses (fun _ => True) (fun _ _ _ _ _ => ?_) trivial).1.mpr fun _ _ => ?_
    · exact ⟨safe_pure _, fun _ _ => trivial⟩
    · exact safe_pure _
  · obtain ⟨hsafe, hin⟩ := nodeRegs_safe_iff (n := (blob ++ rest).length) hblob hparses c room
    refine hsafe.mpr fun s hs => ?_
    cases ev with
    | beginNode => exact safe_pure _
    | endNode => exact safe_pure _
    | prop depth name value => exact (hlast init depth name value w rfl).nodeRegs_safe hs (hin s hs)
  · obtain ⟨hsafe, hin⟩ := devices_safe_iff (n := (blob ++ rest).length) hblob hparses c room
    refine hsafe.mpr fun s hs => Devices.body_safe w (hin s hs) ?_
    cases ev with
    | beginNode => trivial
    | endNode => trivial
    | prop depth name value => exact (hlast init depth name value w rfl).cells
  · obtain ⟨hsafe, hin⟩ := propOf_safe_iff (n := (blob ++ rest).length) hblob hparses c prop
    refine hsafe.mpr fun s hs => ?_
    cases ev with
    | beginNode => exact safe_pure _
    | endNode => exact safe_pure _
    | prop depth name value => exact (hlast init depth name value w rfl).propOf_safe hs (hin s hs)
  · refine (cpus_safe_iff hblob hparses room).mpr fun s hs => ?_
    cases ev with
    | beginNode => exact Cpus.body_in s w _ trivial
    | endNode => exact safe_pure _
    | prop depth name value => exact (hlast init depth name value w rfl).cpus_safe hs
  · refine (MemoryRegions.stays_iff (hyields _)).mpr ?_ turns
    refine (MemoryRegions.memoryIn_append init hinit).mpr fun hstalls => ?_
    cases ev with
    | beginNode => exact ⟨trivial, trivial⟩
    | endNode => exact ⟨trivial, trivial⟩
    | prop depth name value => exact (hlast init depth name value w rfl).memoryIn hstalls

/-- The functions read the blob only exactly if its structure block parses within it and the value of the last
property, which no token follows, lies in it as far as it is looked at. -/
theorem confined_blob_iff {addr : ℕ} (hnew : ((Fdt.new addr).run (blob ++ rest)).2 = some (some f))
    (hsize : f.totalSize = blob.length) : Confined f blob rest ↔
      ∃ evs, Parses f blob Walker.new evs ∧ ∀ init depth name value w,
        evs = init ++ [(.prop depth name value, w)] → LastFits blob init depth name value w := by
  have hlt : f.totalSize < 2 ^ 32 := (new_returns addr).run hnew f rfl
  have hblob : blob.length < 2 ^ 64 := by omega
  constructor
  · intro h
    obtain ⟨evs, hyields⟩ := yields_of_walk f.structSize (Nat.le_add_left _ _) ((staysIn_iff _).mp h.walk)
    refine ⟨evs, (parses_iff_yields hblob).mpr hyields, fun init depth name value w hevs => ?_⟩
    rw [hevs] at hyields
    exact h.lastFits hblob ((parses_iff_yields hblob).mpr hyields)
  · rintro ⟨evs, hparses, hlast⟩
    exact confined_of_fits hblob hparses hlast

end

end

/-- The condition for a board with a serial port. -/
theorem confined_board : Confined board.flattens.fdt board.blob [] ↔
    ∃ evs, Parses board.flattens.fdt board.blob Walker.new evs ∧ ∀ init depth name value w,
      evs = init ++ [(.prop depth name value, w)] → LastFits board.blob init depth name value w := by
  obtain ⟨hsafe, hvalue⟩ := new_flattens (n := (board.blob ++ []).length) board.flattens
    (show 0x40000000 ≠ 0 by decide) (by decide)
  exact confined_blob_iff (by rw [run_of_safe hsafe, hvalue]) rfl

/-- A header, with the structure block where the blob ends. -/
def headerOnly : List UInt8 :=
  beList 4 FDT_MAGIC ++ beList 4 40 ++ beList 4 40 ++ beList 4 40 ++ beList 4 0 ++ beList 4 17 ++
    beList 4 16 ++ beList 4 0 ++ beList 4 0 ++ beList 4 4

/-- Of that blob the token behind it is read. -/
theorem headerOnly_read : ∃ f, ((Fdt.new 0x40000000).run (headerOnly ++ beList 4 FDT_END)).2 = some (some f) ∧
    f.totalSize = headerOnly.length ∧ ¬Confined f headerOnly (beList 4 FDT_END) := by
  have hnew : ((Fdt.new 0x40000000).run (headerOnly ++ beList 4 FDT_END)).2 = some (some ⟨40, 4, 40, 40⟩) := by
    decide
  have hread : 40 ∈ ((Fdt.walk ⟨40, 4, 40, 40⟩).run (headerOnly ++ beList 4 FDT_END)).1 := by
    decide
  refine ⟨_, hnew, by decide, fun hconfined => ?_⟩
  have hlt : 40 < headerOnly.length := hconfined.walk.1 40 hread
  exact absurd hlt (by decide)

end JungeyOs.Dtb
