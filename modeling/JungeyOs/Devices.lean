import JungeyOs.Mm.PageMap
import JungeyOs.Receive
import JungeyOs.Revocation

/-!
# Drivers whose capabilities are revoked

`sys_map_device` and `sys_dma_map` (`kernel/src/syscall.rs`, lines 186–250) with the calls of
`Revocation`, and with every other change that the kernel makes to an address space. A page
remembers which capability it was mapped with.

Results:
* `inv_step`: what every step keeps.
* `exposed_iff`: a page that was mapped with a capability reaches its object.
* `revoked_unreachable_iff`: in a run nothing stays reachable through a revoked capability exactly
  when none is revoked while a page is mapped with it, and none is mapped with afterwards.
* `mapped_survives`: a driver keeps its registers.
-/

namespace JungeyOs.Devices

open Mm Proc Revocation
open Receive (EBADCAP EPERM EREVOKED EINVAL)

/-! ## The calls -/

/-- The capabilities and the address spaces. A leaf entry is tagged with the capability that the page
was mapped with, if any. -/
structure Sys where
  caps : Kernel
  spaces : ℕ → PageMap (Option Cap)

/-- `resolve` (lines 187–196). -/
def resolve (table : Table) (pid slot : ℕ) (right : UInt32) : Except ℤ Cap :=
  match lookupCap table pid slot with
  | none => .error EBADCAP
  | some cap =>
    if cap.revoked then .error EREVOKED
    else if !cap.allows right then .error EPERM
    else .ok cap

/-- What a call maps of an object, and what it returns then. -/
structure Request where
  pa : ℕ
  pages : ℕ
  perm : Perm
  answer : ℕ

/-- `sys_map_device` and `sys_dma_map` (lines 213–250) but for what they map. -/
def mapCap (request : Obj → Option Request) (s : Sys) (pid slot uva room : ℕ) : ℤ × Sys :=
  match resolve s.caps.table pid slot RIGHT_MAP with
  | .error e => (e, s)
  | .ok cap =>
    match request cap.obj with
    | none => (EINVAL, s)
    | some r =>
      let m := (s.spaces pid).map uva r.pa r.pages r.perm (some cap) room
      (match m.1 with
        | .ok () => r.answer
        | .error _ => EINVAL,
        { s with spaces := Function.update s.spaces pid m.2 })

/-- Lines 218–226. -/
def deviceRequest : Obj → Option Request
  | .mmio base size =>
    let aligned := pageAlignDown base
    let offset := base - aligned
    some ⟨aligned, (offset + size + (PAGE_SIZE - 1)) / PAGE_SIZE, .UserDevice, offset⟩
  | _ => none

/-- Lines 242–246. -/
def dmaRequest : Obj → Option Request
  | .dma base pages => some ⟨base, pages, .UserData, base⟩
  | _ => none

/-- `sys_map_device` (lines 213–230). -/
def sysMapDevice : Sys → (pid slot uva room : ℕ) → ℤ × Sys := mapCap deviceRequest

/-- `sys_dma_map` (lines 237–250). -/
def sysDmaMap : Sys → (pid slot uva room : ℕ) → ℤ × Sys := mapCap dmaRequest

/-! ## The system -/

/-- `map` and `unmap` are what the kernel does to an address space for other reasons: it loads a
program, makes a stack, or brings in and drops the pages of a model. -/
inductive Act
  | cap (a : Revocation.Act)
  | mapDevice (pid slot uva room : ℕ)
  | dmaMap (pid slot uva room : ℕ)
  | map (pid va pa pages : ℕ) (perm : Perm) (room : ℕ)
  | unmap (pid va pages : ℕ)

def Sys.step (s : Sys) : Act → Option Sys
  | .cap a => (s.caps.step a).map fun caps => { s with caps := caps }
  | .mapDevice pid slot uva room => some (sysMapDevice s pid slot uva room).2
  | .dmaMap pid slot uva room => some (sysDmaMap s pid slot uva room).2
  | .map pid va pa pages perm room => some
    { s with
      spaces := Function.update s.spaces pid ((s.spaces pid).map va pa pages perm none room).2 }
  | .unmap pid va pages => some
    { s with spaces := Function.update s.spaces pid ((s.spaces pid).unmap va pages) }

/-- Before any call. -/
def boot : Sys := ⟨Kernel.boot, fun _ _ => none⟩

/-- The register window or the DMA region of an object. -/
def InObject (obj : Obj) (pa : ℕ) : Prop :=
  match obj with
  | .mmio base size => base ≤ pa ∧ pa < base + size
  | .dma base pages => base ≤ pa ∧ pa < base + pages * PAGE_SIZE
  | _ => False

/-- A process reaches the object of a capability that descends from `id` through a page that was
mapped with it. -/
def Exposed (s : Sys) (id : ℕ) : Prop :=
  ∃ pid va pa cap, (s.spaces pid).translate va = some pa ∧
    (s.spaces pid (pageOf va)).bind Leaf.tag = some cap ∧
    s.caps.ledger.isDescendant cap.id id = true ∧ InObject cap.obj pa

/-- Nothing is reached through a capability whose `revoke` has returned. -/
def Unreachable (s : Sys) : Prop := ∀ id ∈ s.caps.cut, ¬Exposed s id

/-- Some page of some process is mapped with a capability that descends from `id`, and its object
is not empty. -/
def InUse (s : Sys) (id : ℕ) : Prop :=
  ∃ pid page leaf cap, s.spaces pid page = some leaf ∧ leaf.tag = some cap ∧
    s.caps.ledger.isDescendant cap.id id = true ∧ ∃ pa, InObject cap.obj pa

/-- A call of `mapCap` maps no page with a capability that descends from a revoked id. -/
def MapsLive (request : Obj → Option Request) (s : Sys) (pid slot uva room : ℕ) : Prop :=
  ∀ cap r, resolve s.caps.table pid slot RIGHT_MAP = .ok cap → request cap.obj = some r →
    uva % PAGE_SIZE = 0 → r.pa % PAGE_SIZE = 0 → 0 < r.pages → 0 < room → (∃ pa, InObject cap.obj pa) →
      ∀ id ∈ s.caps.cut, s.caps.ledger.isDescendant cap.id id = false

/-- A capability is revoked when no page is mapped with it, and not mapped with afterwards. -/
def Released (s : Sys) : Act → Prop
  | .cap (.revoke id) => ¬InUse s id
  | .mapDevice pid slot uva room => MapsLive deviceRequest s pid slot uva room
  | .dmaMap pid slot uva room => MapsLive dmaRequest s pid slot uva room
  | _ => True

/-! ## The invariant -/

/-- A page that was mapped with a capability has some address of its object, if there is any. -/
structure LeafValid (s : Sys) (page : ℕ) (leaf : Leaf (Option Cap)) : Prop where
  page : page < 2 ^ 36
  minted : ∀ cap, leaf.tag = some cap → cap.id ≤ s.caps.ledger.length
  meets : ∀ cap, leaf.tag = some cap → (∃ pa, InObject cap.obj pa) →
    ∃ offset < PAGE_SIZE, InObject cap.obj (leaf.frame + offset)

structure Inv (s : Sys) : Prop where
  minted : s.caps.Minted
  leaf : ∀ pid page leaf, s.spaces pid page = some leaf → LeafValid s page leaf

theorem inv_boot : Inv boot := ⟨minted_boot, fun _ _ _ h => by cases h⟩

theorem unreachable_boot : Unreachable boot := fun _ h => by cases h

section

variable {s s' : Sys} {a : Act} {id : ℕ} {request : Obj → Option Request}

theorem pageOf_page {page offset : ℕ} (hpage : page < 2 ^ 36) (hoffset : offset < PAGE_SIZE) :
    pageOf (page * PAGE_SIZE + offset) = page := by
  have h : PAGE_SIZE = 4096 := rfl
  rw [pageOf]
  rw [h] at hoffset ⊢
  omega

/-- A page that was mapped with a capability reaches its object. -/
theorem exposed_iff (h : Inv s) : Exposed s id ↔ InUse s id := by
  constructor
  · rintro ⟨pid, va, pa, cap, -, htag, hdesc, hobj⟩
    obtain ⟨leaf, hleaf, hcap⟩ := Option.bind_eq_some_iff.mp htag
    exact ⟨pid, pageOf va, leaf, cap, hleaf, hcap, hdesc, pa, hobj⟩
  · rintro ⟨pid, page, leaf, cap, hleaf, hcap, hdesc, hobj⟩
    have hvalid := h.leaf pid page leaf hleaf
    obtain ⟨offset, hlt, hin⟩ := hvalid.meets cap hcap hobj
    have hpage := pageOf_page hvalid.page hlt
    refine ⟨pid, page * PAGE_SIZE + offset, leaf.frame + offset, cap, ?_, ?_, hdesc, hin⟩
    · rw [PageMap.translate, hpage, hleaf, Option.map_some, Nat.mul_comm, Nat.mul_add_mod,
        Nat.mod_eq_of_lt hlt]
    · rw [hpage, hleaf, Option.bind_some, hcap]

/-- What a request maps has some address of the object in every page. -/
def Meets (request : Obj → Option Request) : Prop :=
  ∀ obj r, request obj = some r → (∃ pa, InObject obj pa) → ∀ j < r.pages,
    ∃ offset < PAGE_SIZE, InObject obj (r.pa + j * PAGE_SIZE + offset)

theorem meets_device : Meets deviceRequest := by
  intro obj r hr hobj j hj
  have hpage : PAGE_SIZE = 4096 := rfl
  cases obj with
  | mmio base size =>
    cases hr
    obtain ⟨pa, hpa⟩ := hobj
    have hle : pageAlignDown base ≤ base := Nat.div_mul_le_self base PAGE_SIZE
    have hlt : base < pageAlignDown base + PAGE_SIZE := Nat.lt_div_mul_add PAGE_SIZE_pos
    have hsize : base ≤ pa ∧ pa < base + size := hpa
    dsimp only at hj ⊢
    rcases Nat.eq_zero_or_pos j with rfl | hpos
    · refine ⟨base - pageAlignDown base, by omega, ?_⟩
      show base ≤ _ ∧ _ < base + size
      omega
    · refine ⟨0, by decide, ?_⟩
      show base ≤ _ ∧ _ < base + size
      rw [hpage] at hj hlt ⊢
      omega
  | _ => cases hr

theorem meets_dma : Meets dmaRequest := by
  intro obj r hr _ j hj
  cases obj with
  | dma base pages =>
    cases hr
    refine ⟨0, by decide, ?_⟩
    show base ≤ _ ∧ _ < base + pages * PAGE_SIZE
    have hlt : j * PAGE_SIZE < pages * PAGE_SIZE := Nat.mul_lt_mul_of_pos_right hj PAGE_SIZE_pos
    dsimp only
    omega
  | _ => cases hr

/-! ## What the steps keep -/

/-- A page of a call of `mapCap` is mapped with the capability, or the call changes nothing. -/
def Mapped (request : Obj → Option Request) (s : Sys) (pid slot uva room : ℕ) (cap : Cap)
    (r : Request) : Prop :=
  resolve s.caps.table pid slot RIGHT_MAP = .ok cap ∧ request cap.obj = some r ∧
    (mapCap request s pid slot uva room).2 =
      { s with
        spaces := Function.update s.spaces pid
          ((s.spaces pid).map uva r.pa r.pages r.perm (some cap) room).2 }

theorem mapCap_cases (request : Obj → Option Request) (s : Sys) (pid slot uva room : ℕ) :
    (∃ cap r, Mapped request s pid slot uva room cap r) ∨
    (mapCap request s pid slot uva room).2 = s ∧
      ∀ cap, resolve s.caps.table pid slot RIGHT_MAP = .ok cap → request cap.obj = none := by
  unfold Mapped mapCap
  cases hcap : resolve s.caps.table pid slot RIGHT_MAP with
  | error e => exact .inr ⟨rfl, nofun⟩
  | ok cap =>
    dsimp only
    cases hr : request cap.obj with
    | none =>
      refine .inr ⟨rfl, fun cap' hcap' => ?_⟩
      cases hcap'
      exact hr
    | some r => exact .inl ⟨cap, r, rfl, hr, rfl⟩

theorem resolve_ok {table : Table} {pid slot : ℕ} {right : UInt32} {cap : Cap}
    (h : resolve table pid slot right = .ok cap) : lookupCap table pid slot = some cap := by
  unfold resolve at h
  cases hc : lookupCap table pid slot with
  | none => rw [hc] at h; cases h
  | some c =>
    rw [hc] at h
    dsimp only at h
    split_ifs at h
    exact congrArg some (Except.ok.inj h)

/-- A page of a process after a change to the address space of one of them. -/
theorem update_eq_some {spaces : ℕ → PageMap (Option Cap)} {m : PageMap (Option Cap)}
    {pid pid' page : ℕ} {leaf : Leaf (Option Cap)}
    (h : Function.update spaces pid m pid' page = some leaf) :
    pid' = pid ∧ m page = some leaf ∨ spaces pid' page = some leaf := by
  by_cases hpid : pid' = pid
  · subst hpid
    rw [Function.update_self] at h
    exact .inl ⟨rfl, h⟩
  · rw [Function.update_of_ne hpid] at h
    exact .inr h

/-- What a step has to keep that mints and revokes nothing. -/
theorem Inv.spaces (h : Inv s) {spaces : ℕ → PageMap (Option Cap)}
    (hleaf : ∀ pid page leaf, spaces pid page = some leaf → LeafValid s page leaf) :
    Inv { s with spaces := spaces } := by
  refine ⟨h.minted, fun pid page leaf hl => ?_⟩
  obtain ⟨hpage, hminted, hmeets⟩ := hleaf pid page leaf hl
  exact ⟨hpage, hminted, hmeets⟩

theorem pageOf_lt (va : ℕ) : pageOf va < 2 ^ 36 := Nat.mod_lt _ (by decide)

theorem inv_mapCap (h : Inv s) (hmeets : Meets request) (pid slot uva room : ℕ) :
    Inv (mapCap request s pid slot uva room).2 := by
  rcases mapCap_cases request s pid slot uva room with ⟨cap, r, hcap, hr, hmap⟩ | ⟨hsame, -⟩
  · rw [hmap]
    refine h.spaces fun pid' page leaf hleaf => ?_
    rcases update_eq_some hleaf with ⟨-, hleaf⟩ | hleaf
    · rcases PageMap.map_eq_some hleaf with ⟨-, j, hj, hpage, rfl⟩ | hold
      · refine ⟨hpage ▸ pageOf_lt _, fun cap' hcap' => ?_, fun cap' hcap' hobj => ?_⟩
        · cases hcap'
          exact h.minted.table pid slot cap (resolve_ok hcap)
        · cases hcap'
          exact hmeets cap.obj r hr hobj j (by omega)
      · exact h.leaf pid page leaf hold
    · exact h.leaf pid' page leaf hleaf
  · rw [hsame]
    exact h

/-- A call of the kernel on capabilities leaves the ancestry of what was minted as it is. -/
theorem ledger_step (h : s.caps.Minted) {a : Revocation.Act} {caps : Kernel}
    (hs : s.caps.step a = some caps) : s.caps.ledger.length ≤ caps.ledger.length ∧
      ∀ cap id, cap ≤ s.caps.ledger.length →
        caps.ledger.isDescendant cap id = s.caps.ledger.isDescendant cap id := by
  have hregister {p : ℕ} (hp : p ≤ s.caps.ledger.length) (holder purpose : String)
      (rights : UInt32) :
      s.caps.ledger.length ≤ (s.caps.ledger.register p holder purpose rights).1.length ∧
        ∀ cap id, cap ≤ s.caps.ledger.length →
          (s.caps.ledger.register p holder purpose rights).1.isDescendant cap id =
            s.caps.ledger.isDescendant cap id := by
    refine ⟨?_, fun cap id hcap => Ledger.isDescendant_register h.ledger hp hcap⟩
    rw [Ledger.register, List.length_append]
    exact Nat.le_add_right _ _
  cases a with
  | rootFor obj rights holder purpose =>
    cases hs
    exact hregister (Nat.zero_le _) holder purpose rights
  | deriveFor k rights holder purpose =>
    obtain ⟨c, hc, rfl⟩ := Option.map_eq_some_iff.mp hs
    exact hregister (h.held c (List.mem_of_getElem? hc)) holder purpose (c.rights &&& rights)
  | create =>
    cases hs
    exact ⟨le_rfl, fun _ _ _ => rfl⟩
  | lookup pid slot =>
    obtain ⟨c, hc, rfl⟩ := Option.map_eq_some_iff.mp hs
    exact ⟨le_rfl, fun _ _ _ => rfl⟩
  | install pid slot k =>
    obtain ⟨c, hc, rfl⟩ := Option.map_eq_some_iff.mp hs
    split <;> exact ⟨le_rfl, fun _ _ _ => rfl⟩
  | revoke id =>
    cases hs
    exact ⟨le_rfl, fun _ _ _ => rfl⟩

theorem inv_step (h : Inv s) (hs : s.step a = some s') : Inv s' := by
  cases a with
  | cap a =>
    obtain ⟨caps, hcaps, rfl⟩ := Option.map_eq_some_iff.mp hs
    have hgrow := (ledger_step h.minted hcaps).1
    refine ⟨minted_step h.minted hcaps, fun pid page leaf hleaf => ?_⟩
    obtain ⟨hpage, hminted, hmeets⟩ := h.leaf pid page leaf hleaf
    exact ⟨hpage, fun cap hcap => (hminted cap hcap).trans hgrow, hmeets⟩
  | mapDevice pid slot uva room =>
    cases hs
    exact inv_mapCap h meets_device pid slot uva room
  | dmaMap pid slot uva room =>
    cases hs
    exact inv_mapCap h meets_dma pid slot uva room
  | map pid va pa pages perm room =>
    cases hs
    refine h.spaces fun pid' page leaf hleaf => ?_
    rcases update_eq_some hleaf with ⟨rfl, hleaf⟩ | hleaf
    · rcases PageMap.map_eq_some hleaf with ⟨-, j, -, hpage, rfl⟩ | hold
      · exact ⟨hpage ▸ pageOf_lt _, nofun, nofun⟩
      · exact h.leaf pid' page leaf hold
    · exact h.leaf pid' page leaf hleaf
  | unmap pid va pages =>
    cases hs
    refine h.spaces fun pid' page leaf hleaf => ?_
    rcases update_eq_some hleaf with ⟨rfl, hleaf⟩ | hleaf
    · exact h.leaf pid' page leaf (PageMap.unmap_eq_some hleaf)
    · exact h.leaf pid' page leaf hleaf

/-! ## What a step does to the objects within reach -/

/-- A change of address spaces that maps no page with a capability of a revoked id. -/
theorem unreachable_spaces (h : Inv s) (hu : Unreachable s)
    {spaces : ℕ → PageMap (Option Cap)} (hinv : Inv { s with spaces := spaces })
    (hold : ∀ pid page leaf cap, spaces pid page = some leaf → leaf.tag = some cap →
      s.spaces pid page = some leaf ∨ ((∃ pa, InObject cap.obj pa) →
        ∀ id ∈ s.caps.cut, s.caps.ledger.isDescendant cap.id id = false)) :
    Unreachable { s with spaces := spaces } := by
  intro id hid hexposed
  obtain ⟨pid, page, leaf, cap, hleaf, hcap, hdesc, hobj⟩ := (exposed_iff hinv).mp hexposed
  rcases hold pid page leaf cap hleaf hcap with hin | hlive
  · exact hu id hid ((exposed_iff h).mpr ⟨pid, page, leaf, cap, hin, hcap, hdesc, hobj⟩)
  · have hno : s.caps.ledger.isDescendant cap.id id = false := hlive hobj id hid
    have hyes : s.caps.ledger.isDescendant cap.id id = true := hdesc
    rw [hno] at hyes
    cases hyes

theorem unreachable_mapCap_iff (h : Inv s) (hmeets : Meets request) (hu : Unreachable s)
    (pid slot uva room : ℕ) : Unreachable (mapCap request s pid slot uva room).2 ↔
      MapsLive request s pid slot uva room := by
  have hinv := inv_mapCap h hmeets pid slot uva room
  rcases mapCap_cases request s pid slot uva room with
    ⟨cap, r, hcap, hr, hmap⟩ | ⟨hsame, hnone⟩
  · rw [hmap] at hinv ⊢
    constructor
    · intro hu' cap' r' hcap' hr' hva hpa hpages hroom hobj id hid
      rw [hcap] at hcap'
      cases hcap'
      rw [hr] at hr'
      cases hr'
      obtain ⟨j, -, hleaf⟩ :=
        PageMap.map_first (s.spaces pid) r.perm (some cap) hva hpa hpages hroom
      by_contra hdesc
      refine hu' id hid ((exposed_iff hinv).mpr ⟨pid, pageOf uva,
        ⟨r.pa + j * PAGE_SIZE, r.perm, some cap⟩, cap, ?_, rfl,
        Bool.eq_true_of_not_eq_false hdesc, hobj⟩)
      show Function.update s.spaces pid _ pid (pageOf uva) = _
      rw [Function.update_self, hleaf]
    · intro hlive
      refine unreachable_spaces h hu hinv fun pid' page leaf cap' hleaf hcap' => ?_
      rcases update_eq_some hleaf with ⟨rfl, hleaf⟩ | hleaf
      · rcases PageMap.map_eq_some hleaf with ⟨halign, j, hj, -, rfl⟩ | hold
        · cases hcap'
          exact .inr fun hobj => hlive cap r hcap hr halign.1 halign.2 (by omega) (by omega) hobj
        · exact .inl hold
      · exact .inl hleaf
  · rw [hsame]
    refine iff_of_true hu fun cap r hcap hr => ?_
    rw [hnone cap hcap] at hr
    cases hr

/-- What is within reach does not change with the capability tables. -/
theorem exposed_cap_iff (h : Inv s) {a : Revocation.Act} {caps : Kernel}
    (hs : s.caps.step a = some caps) : Exposed { s with caps := caps } id ↔ Exposed s id := by
  have hdesc := (ledger_step h.minted hs).2
  have hiff (pid va : ℕ) (cap : Cap) (htag : (s.spaces pid (pageOf va)).bind Leaf.tag = some cap) :
      caps.ledger.isDescendant cap.id id = s.caps.ledger.isDescendant cap.id id := by
    obtain ⟨leaf, hleaf, hcap⟩ := Option.bind_eq_some_iff.mp htag
    exact hdesc cap.id id ((h.leaf pid _ leaf hleaf).minted cap hcap)
  constructor
  · rintro ⟨pid, va, pa, cap, hpa, htag, hd, hobj⟩
    exact ⟨pid, va, pa, cap, hpa, htag, (hiff pid va cap htag).symm.trans hd, hobj⟩
  · rintro ⟨pid, va, pa, cap, hpa, htag, hd, hobj⟩
    exact ⟨pid, va, pa, cap, hpa, htag, (hiff pid va cap htag).trans hd, hobj⟩

theorem unreachable_cap (h : Inv s) (hu : Unreachable s) {a : Revocation.Act} {caps : Kernel}
    (hs : s.caps.step a = some caps) (hcut : ∀ id ∈ caps.cut, id ∈ s.caps.cut) :
    Unreachable { s with caps := caps } :=
  fun id hid => (exposed_cap_iff h hs).not.mpr (hu id (hcut id hid))

/-- A step keeps what was revoked out of reach exactly when it releases first. -/
theorem unreachable_step_iff (h : Inv s) (hu : Unreachable s) (hs : s.step a = some s') :
    Unreachable s' ↔ Released s a := by
  cases a with
  | cap a =>
    obtain ⟨caps, hcaps, rfl⟩ := Option.map_eq_some_iff.mp hs
    cases a with
    | revoke id =>
      have hcut : caps.cut = id :: s.caps.cut := by
        cases hcaps
        rfl
      have hsame (id' : ℕ) : Exposed { s with caps := caps } id' ↔ Exposed s id' :=
        exposed_cap_iff h hcaps
      constructor
      · intro hu' huse
        have hin : id ∈ caps.cut := hcut ▸ List.mem_cons_self
        exact hu' id hin ((hsame id).mpr ((exposed_iff h).mpr huse))
      · intro hfree id' hid'
        have hin : id' ∈ id :: s.caps.cut := hcut ▸ hid'
        rw [hsame]
        rcases List.mem_cons.mp hin with rfl | hold
        · exact (exposed_iff h).not.mpr hfree
        · exact hu id' hold
    | install pid slot k =>
      refine iff_of_true (unreachable_cap h hu hcaps fun id hid => ?_) trivial
      obtain ⟨c, -, rfl⟩ := Option.map_eq_some_iff.mp hcaps
      split at hid <;> exact hid
    | rootFor obj rights holder purpose =>
      refine iff_of_true (unreachable_cap h hu hcaps fun id hid => ?_) trivial
      cases hcaps
      exact hid
    | create =>
      refine iff_of_true (unreachable_cap h hu hcaps fun id hid => ?_) trivial
      cases hcaps
      exact hid
    | deriveFor k rights holder purpose =>
      refine iff_of_true (unreachable_cap h hu hcaps fun id hid => ?_) trivial
      obtain ⟨c, -, rfl⟩ := Option.map_eq_some_iff.mp hcaps
      exact hid
    | lookup pid slot =>
      refine iff_of_true (unreachable_cap h hu hcaps fun id hid => ?_) trivial
      obtain ⟨c, -, rfl⟩ := Option.map_eq_some_iff.mp hcaps
      exact hid
  | mapDevice pid slot uva room =>
    cases hs
    exact unreachable_mapCap_iff h meets_device hu pid slot uva room
  | dmaMap pid slot uva room =>
    cases hs
    exact unreachable_mapCap_iff h meets_dma hu pid slot uva room
  | map pid va pa pages perm room =>
    have hinv := inv_step h hs
    cases hs
    refine iff_of_true (unreachable_spaces h hu hinv fun pid' page leaf cap hleaf hcap => ?_) trivial
    rcases update_eq_some hleaf with ⟨rfl, hleaf⟩ | hleaf
    · rcases PageMap.map_eq_some hleaf with ⟨-, j, -, -, rfl⟩ | hold
      · cases hcap
      · exact .inl hold
    · exact .inl hleaf
  | unmap pid va pages =>
    have hinv := inv_step h hs
    cases hs
    refine iff_of_true (unreachable_spaces h hu hinv fun pid' page leaf cap hleaf hcap => ?_) trivial
    rcases update_eq_some hleaf with ⟨rfl, hleaf⟩ | hleaf
    · exact .inl (PageMap.unmap_eq_some hleaf)
    · exact .inl hleaf

end

/-! ## Runs -/

/-- **Revoked drivers.** In a run nothing stays within reach of a process through a capability that
was revoked exactly when no capability is revoked while a page is mapped with it or with one derived
from it, and no page is mapped with one afterwards. -/
theorem revoked_unreachable_iff (as : List Act) :
    Run.Throughout Sys.step Unreachable boot as ↔ Run.Meets Sys.step Released boot as := by
  refine Run.throughout_iff_meets Inv (fun _ _ _ h _ hs => inv_step h hs)
    (fun _ _ _ h hu hs => unreachable_step_iff h hu hs) (fun s a _ hs => ?_) inv_boot unreachable_boot as
  cases a with
  | cap a =>
    cases a with
    | revoke id => cases hs
    | _ => trivial
  | mapDevice pid slot uva room => cases hs
  | dmaMap pid slot uva room => cases hs
  | map pid va pa pages perm room => trivial
  | unmap pid va pages => trivial

/-- A driver maps the registers of its device, and its capability is revoked. -/
theorem mapped_survives : ∃ s, Run.exec Sys.step boot
      [.cap .create, .cap (.rootFor (.mmio 0x0a000200 0x200) RIGHT_MAP "kernel" "created the object"),
        .cap (.install 0 0 0), .mapDevice 0 0 0x10000000 4, .cap (.revoke 1)] = some s ∧
      ¬Unreachable s := by
  have hrun : (Run.exec Sys.step boot
      [.cap .create, .cap (.rootFor (.mmio 0x0a000200 0x200) RIGHT_MAP "kernel" "created the object"),
        .cap (.install 0 0 0), .mapDevice 0 0 0x10000000 4, .cap (.revoke 1)]).map (fun s =>
          (s.caps.cut, (s.spaces 0).translate 0x10000200,
            (s.spaces 0 (pageOf 0x10000200)).bind Leaf.tag, s.caps.ledger.isDescendant 1 1)) =
      some ([1], some 0x0a000200, some ⟨1, .mmio 0x0a000200 0x200, RIGHT_MAP, false, "kernel",
        "created the object"⟩, true) := by
    decide
  obtain ⟨s, hs, hstate⟩ := Option.map_eq_some_iff.mp hrun
  obtain ⟨hcut, hrest⟩ := Prod.mk.inj hstate
  obtain ⟨hpa, hrest⟩ := Prod.mk.inj hrest
  obtain ⟨htag, hdesc⟩ := Prod.mk.inj hrest
  refine ⟨s, hs, fun hu => hu 1 (hcut ▸ List.mem_cons_self)
    ⟨0, 0x10000200, 0x0a000200, _, hpa, htag, hdesc, ?_⟩⟩
  exact ⟨le_rfl, by decide⟩

end JungeyOs.Devices
