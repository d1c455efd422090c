import JungeyOs.Inputdrv.Gestures
import JungeyOs.Lib.Ring
import JungeyOs.Lib.Run

/-!
# The input driver and its device

Models of `offer`, `attach` and `next_event` (`user/src/inputdrv.rs`, lines 151–159 and 190–306),
of the loop of `run` (lines 347–414), and of a device that uses what it is offered. Driver and device
take turns in any order, one access of the shared memory at a time and each in the order of its
program: the device takes the entries of
the available ring in order, uses the descriptors that it holds in any order, and writes entries of
the used ring as far ahead as it likes before it publishes them one after the other.

A descriptor points to a buffer, which is named by its number. What the device writes of an entry
besides the descriptor is not read, and the registers carry no data that `next_event` or `run` use.

Results:
* `inv_step`: every descriptor is in one place, and every event that was posted is returned, on its
  way, or in the buffer of a descriptor of the used ring.
* `inv_reachable`: so it is in every run.
-/

namespace JungeyOs.Inputdrv

open Run

def QUEUE_SIZE : ℕ := 64

/-- The memory that driver and device share: the descriptors with the buffers to which they point,
the available ring, the used ring and the buffers. -/
structure Dma where
  desc : ℕ → ℕ
  avail : ℕ → UInt16
  availIdx : UInt16
  used : ℕ → UInt32
  usedIdx : UInt16
  bufs : ℕ → Event

/-- `Input` (lines 128–135). -/
structure Input where
  lastUsed : UInt16
  availIdx : UInt16
  xAxis : Axis
  yAxis : Axis

/-- Where the driver stands in the loop of `run`. -/
inductive Pc
  /-- at the head of `next_event` -/
  | polling
  /-- there is an entry in the used ring -/
  | found
  /-- the entry has this descriptor -/
  | reading (id : ℕ)
  /-- the event is read out of the buffer -/
  | recycling (id : ℕ) (ev : Event)
  /-- the descriptor is in the available ring, and its index is not advanced -/
  | offering (id : ℕ) (ev : Event)
  /-- `next_event` returned this event -/
  | handling (ev : Event)
  /-- `next_event` returned `None` -/
  | waiting
  /-- `run` returned -/
  | stopped
deriving DecidableEq

structure Sys where
  dma : Dma
  input : Input
  pc : Pc
  gesture : Gesture
  /-- the index up to which the device has taken entries of the available ring -/
  seen : UInt16
  /-- the descriptors that the device has taken and not used -/
  held : List ℕ
  /-- the descriptors that it has written into the used ring and not published -/
  written : List ℕ
  /-- the events that were published, that `next_event` returned, and that `run` has dealt with -/
  posted : List Event
  returned : List Event
  handled : List Event

inductive Act
  /-- the driver goes on; `irq` is what `irq_wait` returns and `ok` whether `send` succeeds -/
  | run (irq : ℤ) (ok : Bool)
  | take
  | write (d : ℕ) (ev : Event)
  | publish
deriving DecidableEq

namespace Sys

/-- The first half of `offer` (lines 153–155): the slot is written. -/
def place (s : Sys) (i : ℕ) : Sys :=
  { s with
    dma.avail :=
      Function.update s.dma.avail (s.input.availIdx.toNat % QUEUE_SIZE) (UInt16.ofNat i) }

/-- The second half of `offer` (lines 156–157): the index is advanced. -/
def advance (s : Sys) : Sys :=
  { s with input.availIdx := s.input.availIdx + 1, dma.availIdx := s.input.availIdx + 1 }

def offer (s : Sys) (i : ℕ) : Sys := (s.place i).advance

/-- `write_desc` of a descriptor to its buffer (lines 266–271). -/
def writeDesc (s : Sys) (i : ℕ) : Sys := { s with dma.desc := Function.update s.dma.desc i i }

/-- The memory after `write_bytes` and the driver before it offers anything (lines 233–260). -/
def cleared (xAxis yAxis : Axis) : Sys where
  dma := ⟨fun _ => 0, fun _ => 0, 0, fun _ => 0, 0, fun _ => ⟨0, 0, 0⟩⟩
  input := ⟨0, 0, xAxis, yAxis⟩
  pc := .polling
  gesture := .start
  seen := 0
  held := []
  written := []
  posted := []
  returned := []
  handled := []

/-- What `attach` leaves behind when the device starts (lines 264–274). -/
def attach (xAxis yAxis : Axis) : Sys :=
  (List.range QUEUE_SIZE).foldl (fun s i => (s.writeDesc i).offer i) (cleared xAxis yAxis)

/-- The driver goes on: the steps of `next_event` (lines 284–306) and of `run`. -/
def run (s : Sys) (irq : ℤ) (ok : Bool) : Option Sys :=
  match s.pc with
  | .polling =>
    if s.dma.usedIdx = s.input.lastUsed then some { s with pc := .waiting }
    else some { s with pc := .found }
  | .found =>
    some { s with
      pc := .reading ((s.dma.used (s.input.lastUsed.toNat % QUEUE_SIZE)).toNat % QUEUE_SIZE) }
  | .reading id => some { s with pc := .recycling id (s.dma.bufs id) }
  | .recycling id ev =>
    some { s.place id with
      input := { s.input with lastUsed := s.input.lastUsed + 1 }, pc := .offering id ev }
  | .offering _ ev => some { s.advance with returned := s.returned ++ [ev], pc := .handling ev }
  | .handling ev =>
    match handle s.input.xAxis s.input.yAxis s.gesture ev ok with
    | some g => some { s with gesture := g, handled := s.handled ++ [ev], pc := .polling }
    | none => some { s with pc := .stopped }
  | .waiting =>
    if 0 < irq then some { s with pc := .polling }
    else if ok then some { s with gesture.sent := s.gesture.sent ++ [[]], pc := .polling }
    else some { s with pc := .stopped }
  | .stopped => none

def step (s : Sys) : Act → Option Sys
  | .run irq ok => s.run irq ok
  | .take =>
    if s.seen = s.dma.availIdx then none
    else some { s with
      held := s.held ++ [(s.dma.avail (s.seen.toNat % QUEUE_SIZE)).toNat], seen := s.seen + 1 }
  | .write d ev =>
    if d ∈ s.held then some { s with
      dma.bufs := Function.update s.dma.bufs (s.dma.desc d) ev
      dma.used := Function.update s.dma.used
        ((s.dma.usedIdx.toNat + s.written.length) % QUEUE_SIZE) (UInt32.ofNat d)
      held := s.held.erase d
      written := s.written ++ [d] }
    else none
  | .publish =>
    match s.written with
    | [] => none
    | d :: rest => some { s with
      dma.usedIdx := s.dma.usedIdx + 1
      written := rest
      posted := s.posted ++ [s.dma.bufs (s.dma.desc d)] }

/-- The device starts after `attach`, whatever ranges it reports. -/
def Init (s : Sys) : Prop := ∃ xAxis yAxis, s = attach xAxis yAxis

/-! ## Where the descriptors and the events are -/

/-- The descriptors of the available ring that the device has not taken. -/
def offered (s : Sys) : List ℕ :=
  Ring.between QUEUE_SIZE (UInt16.toNat ∘ s.dma.avail) s.seen.toBitVec s.dma.availIdx.toBitVec

/-- The descriptors of the used ring that the driver has not taken. -/
def completed (s : Sys) : List ℕ :=
  Ring.between QUEUE_SIZE (UInt32.toNat ∘ s.dma.used) s.input.lastUsed.toBitVec s.dma.usedIdx.toBitVec

end Sys

/-- The descriptor that the driver has taken from the used ring and not offered again. -/
def Pc.inHand : Pc → List ℕ
  | .offering id _ => [id]
  | _ => []

/-- The event that was taken from the used ring and that `next_event` has not returned. -/
def Pc.inFlight : Pc → List Event
  | .offering _ ev => [ev]
  | _ => []

namespace Sys

/-- All descriptors, by the place where they are. -/
def descriptors (s : Sys) : List ℕ := s.offered ++ s.held ++ s.written ++ s.completed ++ s.pc.inHand

/-- What the driver knows where it stands. -/
def Knows (s : Sys) : Prop :=
  match s.pc with
  | .found => s.completed ≠ []
  | .reading id => s.completed.head? = some id
  | .recycling id ev => s.completed.head? = some id ∧ s.dma.bufs id = ev
  | .offering id _ => (s.dma.avail (s.dma.availIdx.toNat % QUEUE_SIZE)).toNat = id
  | _ => True

/-- What was returned and what was dealt with. -/
def Handled (s : Sys) : Prop :=
  match s.pc with
  | .handling ev => s.returned = s.handled ++ [ev]
  | .stopped => s.returned = s.handled ∨ ∃ ev, s.returned = s.handled ++ [ev]
  | _ => s.returned = s.handled

structure Inv (s : Sys) : Prop where
  index : s.dma.availIdx = s.input.availIdx
  desc : ∀ i < QUEUE_SIZE, s.dma.desc i = i
  partition : s.descriptors.Perm (List.range QUEUE_SIZE)
  ahead : Ring.window QUEUE_SIZE (UInt32.toNat ∘ s.dma.used) s.dma.usedIdx.toBitVec
    s.written.length = s.written
  events : s.posted = s.returned ++ s.pc.inFlight ++ s.completed.map s.dma.bufs
  knows : s.Knows
  handled : s.Handled
  follows : Follows s.input.xAxis s.input.yAxis s.gesture s.handled

end Sys

/-! ## What the partition says -/

section

variable {s s' : Sys}

theorem ring_divides : QUEUE_SIZE ∣ 2 ^ 16 := by decide

theorem ring_short : QUEUE_SIZE < 2 ^ 16 := by decide

namespace Sys

/-- Every descriptor is in one place only. -/
theorem count_places (h : s.descriptors.Perm (List.range QUEUE_SIZE)) (d : ℕ) :
    s.offered.count d + s.held.count d + s.written.count d + s.completed.count d +
      s.pc.inHand.count d ≤ 1 := by
  have hcount := h.count_eq d
  simp only [descriptors, List.count_append] at hcount
  have hle : (List.range QUEUE_SIZE).count d ≤ 1 :=
    List.nodup_iff_count_le_one.mp List.nodup_range d
  omega

theorem length_places (h : s.descriptors.Perm (List.range QUEUE_SIZE)) :
    s.offered.length + s.held.length + s.written.length + s.completed.length +
      s.pc.inHand.length = QUEUE_SIZE := by
  have hlength := h.length_eq
  simpa only [descriptors, List.length_append, List.length_range] using hlength

theorem lt_of_mem (h : s.descriptors.Perm (List.range QUEUE_SIZE)) {d : ℕ}
    (hd : d ∈ s.descriptors) : d < QUEUE_SIZE :=
  List.mem_range.mp (h.mem_iff.mp hd)

theorem toBitVec_succ (i : UInt16) : (i + 1).toBitVec = i.toBitVec + 1#16 := rfl

/-- The first entry of the used ring. -/
theorem completed_cons (h : s.input.lastUsed ≠ s.dma.usedIdx) :
    s.completed = (s.dma.used (s.input.lastUsed.toNat % QUEUE_SIZE)).toNat ::
      Ring.between QUEUE_SIZE (UInt32.toNat ∘ s.dma.used) (s.input.lastUsed + 1).toBitVec
        s.dma.usedIdx.toBitVec := by
  have hne : s.input.lastUsed.toBitVec ≠ s.dma.usedIdx.toBitVec := fun he =>
    h (UInt16.toBitVec_inj.mp he)
  exact Ring.between_take ring_divides hne

theorem completed_eq_nil_iff : s.completed = [] ↔ s.input.lastUsed = s.dma.usedIdx := by
  rw [completed, Ring.between_eq_nil_iff, UInt16.toBitVec_inj]

/-! ## The steps of the device -/

theorem Inv.take (h : s.Inv) (hne : s.seen ≠ s.dma.availIdx) :
    Inv { s with
      held := s.held ++ [(s.dma.avail (s.seen.toNat % QUEUE_SIZE)).toNat], seen := s.seen + 1 } := by
  have hoffered : s.offered = (s.dma.avail (s.seen.toNat % QUEUE_SIZE)).toNat ::
      Ring.between QUEUE_SIZE (UInt16.toNat ∘ s.dma.avail) (s.seen + 1).toBitVec
        s.dma.availIdx.toBitVec :=
    Ring.between_take ring_divides fun he => hne (UInt16.toBitVec_inj.mp he)
  refine ⟨h.index, h.desc, ?_, h.ahead, h.events, h.knows, h.handled, h.follows⟩
  refine List.Perm.trans ?_ h.partition
  rw [descriptors, descriptors, hoffered, List.perm_iff_count]
  intro d
  simp only [List.count_append, List.count_cons, List.count_nil, offered, completed]
  omega

theorem Inv.write (h : s.Inv) {d : ℕ} (hd : d ∈ s.held) (ev : Event) :
    Inv { s with
      dma.bufs := Function.update s.dma.bufs (s.dma.desc d) ev
      dma.used := Function.update s.dma.used
        ((s.dma.usedIdx.toNat + s.written.length) % QUEUE_SIZE) (UInt32.ofNat d)
      held := s.held.erase d
      written := s.written ++ [d] } := by
  have hlt : d < QUEUE_SIZE := lt_of_mem h.partition (by simp [descriptors, hd])
  have hroom : s.completed.length + s.written.length < QUEUE_SIZE := by
    have := length_places h.partition
    have := List.length_pos_of_mem hd
    omega
  have hvalue : (UInt32.ofNat d).toNat = d := by
    rw [UInt32.toNat_ofNat', Nat.mod_eq_of_lt (hlt.trans (by decide))]
  have hcompleted : Ring.between QUEUE_SIZE (UInt32.toNat ∘ Function.update s.dma.used
      ((s.dma.usedIdx.toNat + s.written.length) % QUEUE_SIZE) (UInt32.ofNat d))
      s.input.lastUsed.toBitVec s.dma.usedIdx.toBitVec = s.completed := by
    rw [Function.comp_update]
    exact Ring.between_ahead ring_divides (by rw [← Ring.length_between]; exact hroom) _
  -- The buffer that is written belongs to no descriptor of the used ring.
  have hother : ∀ c ∈ s.completed, c ≠ d := by
    rintro c hc rfl
    have := count_places h.partition c
    have := List.count_pos_iff.mpr hd
    have := List.count_pos_iff.mpr hc
    omega
  have hbuf : ∀ c ∈ s.completed,
      Function.update s.dma.bufs (s.dma.desc d) ev c = s.dma.bufs c := by
    intro c hc
    rw [h.desc d hlt]
    exact Function.update_of_ne (hother c hc) ..
  refine ⟨h.index, h.desc, ?_, ?_, ?_, ?_, h.handled, h.follows⟩
  · refine List.Perm.trans ?_ h.partition
    rw [descriptors, descriptors, completed, hcompleted, List.perm_iff_count]
    intro c
    have := (List.perm_cons_erase hd).count_eq c
    simp only [List.count_append, List.count_cons, List.count_nil, offered] at this ⊢
    omega
  · rw [Function.comp_update, List.length_append, List.length_singleton, hvalue]
    exact (Ring.window_put (by omega) _).trans (congrArg (· ++ [d]) h.ahead)
  · rw [completed, hcompleted]
    exact h.events.trans (congrArg _ (List.map_congr_left fun c hc => (hbuf c hc).symm))
  · have hknows := h.knows
    rw [Knows] at hknows ⊢
    rw [completed, hcompleted]
    cases hpc : s.pc with
    | recycling id ev' =>
      simp only [hpc] at hknows ⊢
      exact ⟨hknows.1, (hbuf id (List.mem_of_mem_head? hknows.1)).trans hknows.2⟩
    | found | reading | offering => simpa only [hpc] using hknows
    | polling | handling | waiting | stopped => trivial

theorem Inv.publish (h : s.Inv) {d : ℕ} {rest : List ℕ} (hw : s.written = d :: rest) :
    Inv { s with
      dma.usedIdx := s.dma.usedIdx + 1
      written := rest
      posted := s.posted ++ [s.dma.bufs (s.dma.desc d)] } := by
  have hlt : d < QUEUE_SIZE := lt_of_mem h.partition (by simp [descriptors, hw])
  have hahead := h.ahead
  rw [hw, List.length_cons, Ring.window_cons ring_divides] at hahead
  obtain ⟨hd, hrest⟩ := List.cons.inj hahead
  have hshort : s.completed.length + 1 < 2 ^ 16 := by
    have := length_places h.partition
    have := ring_short
    simp only [hw, List.length_cons] at *
    omega
  have hcompleted : Ring.between QUEUE_SIZE (UInt32.toNat ∘ s.dma.used) s.input.lastUsed.toBitVec
      (s.dma.usedIdx + 1).toBitVec = s.completed ++ [d] := by
    rw [toBitVec_succ, Ring.between_publish ring_divides (by rw [← Ring.length_between]; exact hshort),
      hd]
    rfl
  refine ⟨h.index, h.desc, ?_, hrest, ?_, ?_, h.handled, h.follows⟩
  · refine List.Perm.trans ?_ h.partition
    rw [descriptors, descriptors, completed, hcompleted, hw, List.perm_iff_count]
    intro c
    simp only [List.count_append, List.count_cons, List.count_nil, offered]
    omega
  · rw [completed, hcompleted, List.map_append, ← List.append_assoc, h.desc d hlt]
    exact congrArg (· ++ [s.dma.bufs d]) h.events
  · have hknows := h.knows
    rw [Knows] at hknows ⊢
    rw [completed, hcompleted]
    have hhead {id : ℕ} (hid : s.completed.head? = some id) :
        (s.completed ++ [d]).head? = some id := by
      rw [List.head?_append, hid, Option.some_or]
    cases hpc : s.pc with
    | found => exact List.append_ne_nil_of_right_ne_nil _ (List.cons_ne_nil d [])
    | reading id => exact hhead (by simpa only [hpc] using hknows)
    | recycling id ev =>
      simp only [hpc] at hknows ⊢
      exact ⟨hhead hknows.1, hknows.2⟩
    | offering => simpa only [hpc] using hknows
    | polling | handling | waiting | stopped => trivial

/-! ## The steps of the driver -/

variable {id : ℕ} {ev : Event} {irq : ℤ} {ok : Bool}

/-- A step of the driver that leaves the rings as they are. -/
theorem Inv.local {pc : Pc} {gesture : Gesture} {handled : List Event} (h : s.Inv)
    (hhand : pc.inHand = s.pc.inHand) (hflight : pc.inFlight = s.pc.inFlight)
    (hknows : Knows { s with pc := pc, gesture := gesture, handled := handled })
    (hhandled : Handled { s with pc := pc, gesture := gesture, handled := handled })
    (hfollows : Follows s.input.xAxis s.input.yAxis gesture handled) :
    Inv { s with pc := pc, gesture := gesture, handled := handled } := by
  refine ⟨h.index, h.desc, ?_, h.ahead, ?_, hknows, hhandled, hfollows⟩
  · have hpartition := h.partition
    rw [descriptors, ← hhand] at hpartition
    exact hpartition
  · have hevents := h.events
    rw [← hflight] at hevents
    exact hevents

/-- The entry that `next_event` reads is the first of the used ring. -/
theorem Inv.find (h : s.Inv) (hpc : s.pc = .found) :
    s.completed.head? =
      some ((s.dma.used (s.input.lastUsed.toNat % QUEUE_SIZE)).toNat % QUEUE_SIZE) := by
  have hknows := h.knows
  simp only [Knows, hpc] at hknows
  have hcons := completed_cons fun he => hknows (completed_eq_nil_iff.mpr he)
  have hmem : (s.dma.used (s.input.lastUsed.toNat % QUEUE_SIZE)).toNat ∈ s.descriptors := by
    rw [descriptors, hcons]
    simp
  rw [hcons, List.head?_cons, Nat.mod_eq_of_lt (lt_of_mem h.partition hmem)]

theorem Inv.recycle (h : s.Inv) (hpc : s.pc = .recycling id ev) :
    Inv { s.place id with
      input := { s.input with lastUsed := s.input.lastUsed + 1 }, pc := .offering id ev } := by
  have hknows := h.knows
  simp only [Knows, hpc] at hknows
  obtain ⟨hhead, hev⟩ := hknows
  have hne : s.input.lastUsed ≠ s.dma.usedIdx := by
    intro he
    rw [completed_eq_nil_iff.mpr he] at hhead
    cases hhead
  have hcons := completed_cons hne
  have hid : (s.dma.used (s.input.lastUsed.toNat % QUEUE_SIZE)).toNat = id := by
    rw [hcons] at hhead
    exact Option.some.inj hhead
  rw [hid] at hcons
  have hlt : id < QUEUE_SIZE := lt_of_mem h.partition (by simp [descriptors, hcons])
  have hvalue : (UInt16.ofNat id).toNat = id := by
    rw [UInt16.toNat_ofNat', Nat.mod_eq_of_lt (hlt.trans ring_short)]
  have hoffered : Ring.between QUEUE_SIZE (UInt16.toNat ∘ (s.place id).dma.avail) s.seen.toBitVec
      s.dma.availIdx.toBitVec = s.offered := by
    have hroom : s.offered.length < QUEUE_SIZE := by
      have := length_places h.partition
      rw [hcons, List.length_cons] at this
      omega
    rw [place, Function.comp_update, ← h.index]
    exact Ring.between_ahead (k := 0) ring_divides (by rw [← Ring.length_between]; exact hroom) _
  refine ⟨h.index, h.desc, ?_, h.ahead, ?_, ?_, ?_, h.follows⟩
  · refine List.Perm.trans ?_ h.partition
    rw [descriptors, descriptors, hcons, hpc, List.perm_iff_count]
    intro c
    have hcount := congrArg (List.count c) hoffered
    simp only [List.count_append, List.count_cons, List.count_nil, offered, completed, Pc.inHand,
      place] at hcount ⊢
    omega
  · have hevents := h.events
    rw [hcons, hpc, List.map_cons, hev] at hevents
    simpa [Pc.inFlight, completed, place] using hevents
  · simp only [Knows, place, h.index, Function.update_self, hvalue]
  · have hhandled := h.handled
    simpa only [Handled, hpc, place] using hhandled

theorem Inv.advance (h : s.Inv) (hpc : s.pc = .offering id ev) :
    Inv { s.advance with returned := s.returned ++ [ev], pc := .handling ev } := by
  have hknows := h.knows
  simp only [Knows, hpc] at hknows
  have hoffered : Ring.between QUEUE_SIZE (UInt16.toNat ∘ s.dma.avail) s.seen.toBitVec
      (s.input.availIdx + 1).toBitVec = s.offered ++ [id] := by
    have hshort : s.offered.length + 1 < 2 ^ 16 := by
      have hlength := length_places h.partition
      have := ring_short
      rw [hpc, Pc.inHand, List.length_singleton] at hlength
      omega
    rw [← h.index, toBitVec_succ,
      Ring.between_publish ring_divides (by rw [← Ring.length_between]; exact hshort)]
    exact congrArg (s.offered ++ [·]) hknows
  refine ⟨rfl, h.desc, ?_, h.ahead, ?_, trivial, ?_, h.follows⟩
  · refine List.Perm.trans ?_ h.partition
    rw [descriptors, descriptors, hpc, List.perm_iff_count]
    intro c
    have hcount := congrArg (List.count c) hoffered
    simp only [List.count_append, List.count_cons, List.count_nil, offered, completed, Pc.inHand,
      Sys.advance] at hcount ⊢
    omega
  · have hevents := h.events
    rw [hpc] at hevents
    simpa [Pc.inFlight, completed, Sys.advance] using hevents
  · have hhandled := h.handled
    simp only [Handled, hpc] at hhandled ⊢
    exact congrArg (· ++ [ev]) hhandled

theorem Inv.run (h : s.Inv) (hs : s.run irq ok = some s') : s'.Inv := by
  have hhandled := h.handled
  rw [Sys.run] at hs
  cases hpc : s.pc with
  | polling =>
    simp only [hpc, Handled] at hs hhandled
    split_ifs at hs with hidx <;> obtain rfl := Option.some.inj hs
    · exact h.local (by rw [hpc]; rfl) (by rw [hpc]; rfl) trivial hhandled h.follows
    · refine h.local (by rw [hpc]; rfl) (by rw [hpc]; rfl) ?_ hhandled h.follows
      exact fun hnil => hidx (completed_eq_nil_iff.mp hnil).symm
  | found =>
    simp only [hpc, Handled] at hs hhandled
    obtain rfl := Option.some.inj hs
    exact h.local (by rw [hpc]; rfl) (by rw [hpc]; rfl) (h.find hpc) hhandled h.follows
  | reading id =>
    have hknows := h.knows
    simp only [hpc, Handled, Knows] at hs hhandled hknows
    obtain rfl := Option.some.inj hs
    exact h.local (by rw [hpc]; rfl) (by rw [hpc]; rfl) ⟨hknows, rfl⟩ hhandled h.follows
  | recycling id ev =>
    simp only [hpc] at hs
    obtain rfl := Option.some.inj hs
    exact h.recycle hpc
  | offering id ev =>
    simp only [hpc] at hs
    obtain rfl := Option.some.inj hs
    exact h.advance hpc
  | handling ev =>
    simp only [hpc, Handled] at hs hhandled
    cases hh : handle s.input.xAxis s.input.yAxis s.gesture ev ok with
    | some g =>
      rw [hh] at hs
      obtain rfl := Option.some.inj hs
      exact h.local (by rw [hpc]; rfl) (by rw [hpc]; rfl) trivial hhandled
        (handle_follows h.follows hh)
    | none =>
      rw [hh] at hs
      obtain rfl := Option.some.inj hs
      exact h.local (by rw [hpc]; rfl) (by rw [hpc]; rfl) trivial (.inr ⟨ev, hhandled⟩) h.follows
  | waiting =>
    simp only [hpc, Handled] at hs hhandled
    split_ifs at hs with hirq hok <;> obtain rfl := Option.some.inj hs
    · exact h.local (by rw [hpc]; rfl) (by rw [hpc]; rfl) trivial hhandled h.follows
    · exact h.local (by rw [hpc]; rfl) (by rw [hpc]; rfl) trivial hhandled h.follows.beat
    · exact h.local (by rw [hpc]; rfl) (by rw [hpc]; rfl) trivial (.inl hhandled) h.follows
  | stopped =>
    simp only [hpc] at hs
    cases hs

theorem inv_step {a : Act} (h : s.Inv) (hs : s.step a = some s') : s'.Inv := by
  cases a with
  | run irq ok => exact h.run hs
  | take =>
    rw [step] at hs
    split_ifs at hs with hne
    obtain rfl := Option.some.inj hs
    exact h.take hne
  | write d ev =>
    rw [step] at hs
    split_ifs at hs with hd
    obtain rfl := Option.some.inj hs
    exact h.write hd ev
  | publish =>
    rw [step] at hs
    cases hw : s.written with
    | nil =>
      rw [hw] at hs
      cases hs
    | cons d rest =>
      rw [hw] at hs
      obtain rfl := Option.some.inj hs
      exact h.publish hw

/-! ## The start -/

/-- `attach` has offered `n` descriptors. -/
structure Prepared (n : ℕ) (s : Sys) : Prop where
  index : s.dma.availIdx = s.input.availIdx
  desc : ∀ i < n, s.dma.desc i = i
  offered : s.offered = List.range n
  device : s.held = [] ∧ s.written = [] ∧ s.completed = []
  events : s.posted = [] ∧ s.returned = [] ∧ s.handled = []
  driver : s.pc = .polling ∧ s.gesture = .start

theorem Prepared.offer {n : ℕ} (h : Prepared n s) (hn : n < QUEUE_SIZE) :
    Prepared (n + 1) ((s.writeDesc n).offer n) where
  index := rfl
  desc i hi := by
    have hupdate : ((s.writeDesc n).offer n).dma.desc i = Function.update s.dma.desc n n i := rfl
    rw [hupdate, Function.update_apply]
    split_ifs with heq
    · exact heq.symm
    · exact h.desc i (by omega)
  offered := by
    have hvalue : (UInt16.ofNat n).toNat = n := by
      rw [UInt16.toNat_ofNat', Nat.mod_eq_of_lt (hn.trans ring_short)]
    have hroom : s.offered.length < QUEUE_SIZE := by
      rw [h.offered, List.length_range]
      exact hn
    have hput : ((s.writeDesc n).offer n).offered = Ring.between QUEUE_SIZE
        (UInt16.toNat ∘ Function.update s.dma.avail (s.input.availIdx.toNat % QUEUE_SIZE)
          (UInt16.ofNat n)) s.seen.toBitVec (s.input.availIdx + 1).toBitVec := rfl
    rw [hput, Function.comp_update, hvalue, ← h.index, toBitVec_succ, List.range_succ, ← h.offered]
    exact Ring.between_put ring_divides ring_short (by rw [← Ring.length_between]; exact hroom) n
  device := h.device
  events := h.events
  driver := h.driver

theorem prepared_attach (xAxis yAxis : Axis) : Prepared QUEUE_SIZE (attach xAxis yAxis) := by
  have hprefix (n : ℕ) (hn : n ≤ QUEUE_SIZE) : Prepared n
      ((List.range n).foldl (fun s i => (s.writeDesc i).offer i) (cleared xAxis yAxis)) := by
    induction n with
    | zero =>
      exact ⟨rfl, fun i hi => by omega, Ring.between_self, ⟨rfl, rfl, Ring.between_self⟩,
        ⟨rfl, rfl, rfl⟩, ⟨rfl, rfl⟩⟩
    | succ n ih =>
      rw [List.range_succ, List.foldl_append]
      exact (ih (by omega)).offer (by omega)
  exact hprefix QUEUE_SIZE le_rfl

theorem inv_init (h : s.Init) : s.Inv := by
  obtain ⟨xAxis, yAxis, rfl⟩ := h
  have hp := prepared_attach xAxis yAxis
  obtain ⟨hheld, hwritten, hcompleted⟩ := hp.device
  obtain ⟨hposted, hreturned, hhandled⟩ := hp.events
  obtain ⟨hpc, hgesture⟩ := hp.driver
  refine ⟨hp.index, hp.desc, ?_, ?_, ?_, ?_, ?_, ?_⟩
  · rw [descriptors, hp.offered, hheld, hwritten, hcompleted, hpc]
    simp [Pc.inHand]
  · rw [hwritten]
    rfl
  · rw [hposted, hreturned, hcompleted, hpc]
    rfl
  · simp only [Knows, hpc]
  · simp only [Handled, hpc, hreturned, hhandled]
  · rw [hgesture, hhandled]
    exact start_follows

theorem inv_reachable (h : Reachable step always Init s) : s.Inv :=
  h.invariant Inv (fun _ => inv_init) fun _ _ _ hi _ hs => inv_step hi hs

end Sys

end

end JungeyOs.Inputdrv
