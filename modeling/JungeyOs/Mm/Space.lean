import JungeyOs.Lib.Run
import JungeyOs.Mm.Paging

/-!
# Address spaces over their histories

An address space (`kernel/src/mm/paging.rs`) is a map from pages to frames, which its calls have built.
The calls are those that succeed, with ranges below 2^48.

Results:
* `Paged.map_gives`, `Paged.mapAnonymous_gives`, `Paged.unmap_gives`: what a call does to the map.
* `Space.space_sound`: an address space is the map that its calls have built, and owns its
  tables and the frames that it allocated.
-/

namespace JungeyOs.Mm

open Radix (Reaches)

/-! ## The abstract map -/

/-- A call gives each page of a range a frame, or none. -/
structure Call where
  first : ℕ
  pages : ℕ
  frame : ℕ → Option ℕ

def Call.covers (c : Call) (page : ℕ) : Prop := c.first ≤ page ∧ page < c.first + c.pages

instance (c : Call) (page : ℕ) : Decidable (c.covers page) := inferInstanceAs (Decidable (_ ∧ _))

/-- The frame that a page has after a call. -/
def Call.apply (c : Call) (m : ℕ → Option ℕ) (page : ℕ) : Option ℕ :=
  if c.covers page then c.frame (page - c.first) else m page

/-- The frame that the last call to cover the page gave it; the last call comes first. -/
def mapped : List Call → ℕ → Option ℕ
  | [], _ => none
  | c :: calls, page => c.apply (mapped calls) page

/-- `map` gives the pages the frames from `pa` on. -/
def Call.map (va pa pages : ℕ) : Call :=
  ⟨va / PAGE_SIZE, pages, fun i => some (pa + i * PAGE_SIZE)⟩

/-- `map_anonymous` gives the pages the frames that it has allocated. -/
def Call.anonymous (va : ℕ) (frames : List ℕ) : Call :=
  ⟨va / PAGE_SIZE, frames.length, fun i => frames[i]?⟩

def Call.unmap (va pages : ℕ) : Call := ⟨va / PAGE_SIZE, pages, fun _ => none⟩

/-! ## A space over its history -/

/-- An address space and its history: the calls, the last first, and the frames that were passed to
`map` and were not the space's own. -/
structure Space where
  st : Paged
  calls : List Call
  passed : List ℕ

namespace Space

/-- `store` is a write to memory by anyone. -/
inductive Act
  | map (va pa pages : ℕ) (perm : Perm) (supply : List ℕ)
  | mapAnonymous (va pages : ℕ) (perm : Perm) (supply : List ℕ)
  | unmap (va pages : ℕ)
  | store (frame : ℕ) (words : Fin 512 → UInt64)

/-- The frames that a call of `map` is passed. -/
def passes (pa pages : ℕ) : List ℕ := (List.range pages).map fun i => pa + i * PAGE_SIZE

/-- The calls that succeed; `supply` are the frames that the allocator has for a call. -/
def step (s : Space) : Act → Option Space
  | .map va pa pages perm supply =>
    match ({ s.st with supply := supply } : Paged).map va pa pages perm with
    | (.error _, _) => none
    | (.ok (), st) => some
      { st := st
        calls := Call.map va pa pages :: s.calls
        passed := (passes pa pages).filter (· ∉ s.st.space.owned) ++ s.passed }
  | .mapAnonymous va pages perm supply =>
    match ({ s.st with supply := supply } : Paged).mapAnonymous va pages perm with
    | (.error _, _) => none
    | (.ok (), st) => some
      { s with
        st := st
        calls := Call.anonymous va (st.anon.drop s.st.anon.length) :: s.calls }
  | .unmap va pages => some
    { s with
      st := ({ s.st with supply := [] } : Paged).unmap va pages
      calls := Call.unmap va pages :: s.calls }
  | .store frame words => some
    { s with st := { s.st with mem := Function.update s.st.mem frame words } }

/-- The allocator hands out distinct frames below 2^48 that nobody holds. -/
structure Supplies (s : Space) (supply : List ℕ) : Prop where
  aligned : ∀ f ∈ supply, PAGE_SIZE ∣ f
  low : ∀ f ∈ supply, f < 2 ^ 48
  notOwned : ∀ f ∈ supply, f ∉ s.st.space.owned
  notPassed : ∀ f ∈ supply, f ∉ s.passed
  once : supply.Nodup

/-- The ranges of a call are below 2^48, and nobody writes to the tables. -/
def Ok (s : Space) : Act → Prop
  | .map va pa pages _ supply => va + pages * PAGE_SIZE ≤ 2 ^ 48 ∧ pa + pages * PAGE_SIZE ≤ 2 ^ 48 ∧
      s.Supplies supply ∧ ∀ f ∈ supply, f ∉ passes pa pages
  | .mapAnonymous va pages _ supply => va + pages * PAGE_SIZE ≤ 2 ^ 48 ∧ s.Supplies supply
  | .unmap va pages => va + pages * PAGE_SIZE ≤ 2 ^ 48
  | .store frame _ => ¬Reaches target s.st.mem s.st.space.root 3 frame

/-- A new space. -/
def Starts (s : Space) : Prop :=
  (∃ mem supply, Paged.create mem supply = some s.st) ∧ s.calls = [] ∧ s.passed = []

/-- The space is the map that its calls have built, and owns its tables (the root is one) and the
frames that it has allocated. Those are freed with it, each once, and no others. -/
structure Sound (s : Space) : Prop where
  translate : ∀ v < 2 ^ 48, s.st.translate v =
    (mapped s.calls (v / PAGE_SIZE)).map (· + v % PAGE_SIZE)
  owned : ∀ f, f ∈ s.st.space.owned ↔ Reaches target s.st.mem s.st.space.root 3 f ∨ f ∈ s.st.anon
  apart : ∀ f ∈ s.st.anon, ¬Reaches target s.st.mem s.st.space.root 3 f
  once : s.st.space.owned.Nodup
  passed : ∀ f ∈ s.passed, f ∉ s.st.space.owned
  drop : ∀ (fr fr' : Frames) (mem mem' : Memory), fr.WF mem →
    (∀ f ∈ s.st.space.owned, fr.Used mem f) → s.st.space.drop fr mem = (fr', mem') →
      fr'.WF mem' ∧ fr'.freeFrames mem' = s.st.space.owned.reverse ++ fr.freeFrames mem

end Space

/-! ## The calls -/

namespace Paged

/-- The lookups after a call. -/
def Gives (s s' : Paged) (c : Call) : Prop :=
  ∀ v < 2 ^ 48, s'.lookup v = c.apply (fun _ => s.lookup v) (v / PAGE_SIZE)

section

variable {s s' : Paged} {va : ℕ}

/-- Below 2^48 no page comes up twice. -/
theorem Enters.gives {entry : ℕ → Option UInt64} {n : ℕ} {c : Call} (h : Enters s s' va entry n)
    (hva : va + n * PAGE_SIZE ≤ 2 ^ 48) (hfirst : c.first = va / PAGE_SIZE) (hpages : c.pages = n)
    (hframe : ∀ j < n, ((entry j).map fun e => (e &&& ADDR_MASK).toNat) = c.frame j) :
    Gives s s' c := by
  have hfrom (j : ℕ) (hj : j < n) : pageOf (va + j * PAGE_SIZE) = va / PAGE_SIZE + j :=
    pageOf_add (page_lt hva hj)
  intro v hv
  have hcovers : c.covers (v / PAGE_SIZE) ↔
      va / PAGE_SIZE ≤ v / PAGE_SIZE ∧ v / PAGE_SIZE < va / PAGE_SIZE + n := by
    rw [← hfirst, ← hpages]
    exact Iff.rfl
  rw [Call.apply, lookup_eq, lookup_eq]
  split_ifs with hcov
  · obtain ⟨hle, hlt⟩ := hcovers.mp hcov
    obtain ⟨j, hj⟩ := Nat.exists_eq_add_of_le hle
    have hjn : j < n := by omega
    rw [h.last j hjn, hframe j hjn, hfirst, hj, Nat.add_sub_cancel_left]
    · intro k hjk hk
      rw [hfrom k hk, hfrom j hjn]
      omega
    · rw [hfrom j hjn, pageOf_of_lt hv, hj]
  · rw [h.others v]
    intro j hj hpage
    rw [hfrom j hj, pageOf_of_lt hv] at hpage
    exact hcov (hcovers.mpr (by omega))

theorem map_gives {pa pages : ℕ} {perm : Perm} (h : Inv s) (hf : Fresh s)
    (hva : va + pages * PAGE_SIZE ≤ 2 ^ 48) (hpa : pa + pages * PAGE_SIZE ≤ 2 ^ 48)
    (hm : s.map va pa pages perm = (.ok (), s')) : Takes s s' [] ∧ Gives s s' (Call.map va pa pages) := by
  by_cases halign : va % PAGE_SIZE = 0 ∧ pa % PAGE_SIZE = 0
  · obtain ⟨htakes, henters, hok⟩ := map_spec h hf hm halign
    rw [hok.mp rfl] at henters
    refine ⟨htakes, henters.gives hva rfl rfl fun j hj => ?_⟩
    have htarget := target_page (Nat.dvd_add (Nat.dvd_of_mod_eq_zero halign.2) (Nat.dvd_mul_left _ j))
      (page_lt hpa hj) perm
    rw [target_eq, valid_page] at htarget
    exact htarget
  · rw [map_unaligned halign] at hm
    cases hm

theorem mapAnonymous_gives {pages : ℕ} {perm : Perm} (h : Inv s) (hf : Fresh s)
    (hva : va + pages * PAGE_SIZE ≤ 2 ^ 48) (hm : s.mapAnonymous va pages perm = (.ok (), s')) :
    ∃ frames, frames.length = pages ∧ Takes s s' frames ∧ Gives s s' (Call.anonymous va frames) := by
  by_cases halign : va % PAGE_SIZE = 0
  · obtain ⟨frames, htakes, henters, hgiven, hok, hlen⟩ := mapAnonymous_spec h hf hm halign
    rw [hok.mp rfl] at henters hgiven
    refine ⟨frames, hlen rfl, htakes, henters.gives hva rfl (hlen rfl) fun j hj => ?_⟩
    rw [← hgiven j hj]
    show _ = frames[j]?
    obtain ⟨f, hframe⟩ : ∃ f, frames[j]? = some f :=
      ⟨_, List.getElem?_eq_getElem (by rw [hlen rfl]; exact hj)⟩
    have hmem : f ∈ s.supply := List.mem_of_getElem? ((hgiven j hj).symm.trans hframe)
    have htarget := target_page (hf.aligned f hmem) (hf.low f hmem) perm
    rw [target_eq, valid_page] at htarget
    rw [hframe]
    exact htarget
  · obtain ⟨frames, htakes, hsame, hok⟩ := mapAnonymous_unaligned h hf hm halign
    obtain ⟨rfl, rfl⟩ := hok rfl
    have hnone : Enters s s' va (fun _ => none) 0 := .none hsame
    exact ⟨[], rfl, htakes, hnone.gives (by omega) rfl rfl nofun⟩

theorem unmap_gives {pages : ℕ} (h : Inv s) (hf : Fresh s) (hva : va + pages * PAGE_SIZE ≤ 2 ^ 48) :
    Takes s (s.unmap va pages) [] ∧ Gives s (s.unmap va pages) (Call.unmap va pages) := by
  obtain ⟨htakes, henters⟩ := unmap_spec va pages h hf
  exact ⟨htakes, henters.gives hva rfl rfl fun _ _ => rfl⟩

end

end Paged

/-! ## Every history -/

namespace Space

/-- Freed one by one, frames in use join the free list. -/
theorem drop_spec : ∀ {owned : List ℕ} {fr fr' : Frames} {mem mem' : Memory}, owned.Nodup →
    fr.WF mem → (∀ f ∈ owned, fr.Used mem f) →
      owned.foldl (fun x f => x.1.free x.2 f) (fr, mem) = (fr', mem') →
        fr'.WF mem' ∧ fr'.freeFrames mem' = owned.reverse ++ fr.freeFrames mem := by
  intro owned
  induction owned with
  | nil =>
    intro fr fr' mem mem' _ hwf _ hd
    cases hd
    exact ⟨hwf, rfl⟩
  | cons f owned ih =>
    intro fr fr' mem mem' honce hwf hused hd
    obtain ⟨hnot, honce⟩ := List.nodup_cons.mp honce
    have hf := hused f List.mem_cons_self
    have hfreed : fr.free mem f = ((fr.free mem f).1, (fr.free mem f).2) := rfl
    obtain ⟨hwf', -, hothers, -⟩ := hwf.free hf hfreed
    have hfree := hwf.freeFrames_free hf hfreed
    obtain ⟨hwf'', hall⟩ := ih honce hwf' (fun g hg => hothers g (ne_of_mem_of_not_mem hg hnot)
      (hused g (.tail _ hg))) hd
    refine ⟨hwf'', ?_⟩
    rw [hall, hfree, List.reverse_cons, List.append_assoc]
    rfl

structure Inv (s : Space) : Prop where
  st : s.st.Inv
  lookup : ∀ v < 2 ^ 48, s.st.lookup v = mapped s.calls (v / PAGE_SIZE)
  passed : ∀ f ∈ s.passed, f ∉ s.st.space.owned

section

variable {s s' : Space} {a : Act} {st : Paged} {supply anon : List ℕ} {c : Call}

theorem Inv.sound (h : Inv s) : Sound s := by
  refine ⟨fun v hv => ?_, h.st.owned, h.st.apart, h.st.once, h.passed, fun fr fr' mem mem' hwf hused hd =>
    drop_spec h.st.once hwf hused hd⟩
  rw [Paged.translate_eq, h.lookup v hv]

theorem inv_start (hs : Starts s) : Inv s := by
  obtain ⟨⟨mem, supply, hcreate⟩, hcalls, hpassed⟩ := hs
  obtain ⟨hst, hleaf⟩ := Paged.create_spec hcreate
  refine ⟨hst, fun v _ => ?_, ?_⟩
  · rw [Paged.lookup_eq, hleaf, hcalls]
    rfl
  · simp [hpassed]

/-- A call that takes frames of the supply and maps pages. -/
theorem Inv.call (h : Inv s) (hsupply : s.Supplies supply)
    (htakes : Paged.Takes { s.st with supply := supply } st anon)
    (hgives : Paged.Gives { s.st with supply := supply } st c) {passed : List ℕ}
    (hpassed : ∀ f ∈ passed, f ∈ s.passed ∨ f ∉ s.st.space.owned ∧ f ∉ supply) :
    Inv { st := st, calls := c :: s.calls, passed := passed } := by
  refine ⟨htakes.inv, fun v hv => ?_, fun f hf howned => ?_⟩
  · rw [hgives v hv, mapped, Call.apply, Call.apply]
    exact if_congr Iff.rfl rfl (h.lookup v hv)
  · rcases htakes.owned f howned with hold | hnew
    · rcases hpassed f hf with hf | ⟨hf, -⟩
      · exact h.passed f hf hold
      · exact hf hold
    · rcases hpassed f hf with hf | ⟨-, hf⟩
      · exact hsupply.notPassed f hnew hf
      · exact hf hnew

theorem Supplies.fresh (h : s.Supplies supply) : Paged.Fresh { s.st with supply := supply } :=
  ⟨h.aligned, h.low, h.notOwned, h.once⟩

theorem Inv.step (h : Inv s) (hok : Ok s a) (hs : Space.step s a = some s') : Inv s' := by
  cases a with
  | map va pa pages perm supply =>
    obtain ⟨hva, hpa, hsupply, hother⟩ := hok
    rw [Space.step] at hs
    split at hs
    · cases hs
    · rename_i st hm
      cases hs
      obtain ⟨htakes, hgives⟩ := Paged.map_gives (h.st.supplied supply) hsupply.fresh hva hpa hm
      refine h.call hsupply htakes hgives fun f hf => ?_
      rcases List.mem_append.mp hf with hf | hf
      · obtain ⟨hpass, hnot⟩ := List.mem_filter.mp hf
        exact .inr ⟨of_decide_eq_true hnot, fun hmem => hother f hmem hpass⟩
      · exact .inl hf
  | mapAnonymous va pages perm supply =>
    obtain ⟨hva, hsupply⟩ := hok
    rw [Space.step] at hs
    split at hs
    · cases hs
    · rename_i st hm
      cases hs
      obtain ⟨frames, -, htakes, hgives⟩ :=
        Paged.mapAnonymous_gives (h.st.supplied supply) hsupply.fresh hva hm
      have hframes : st.anon.drop s.st.anon.length = frames := by
        rw [htakes.anon, List.drop_left]
      rw [hframes]
      exact h.call hsupply htakes hgives fun f hf => .inl hf
  | unmap va pages =>
    cases hs
    have hnone : s.Supplies [] := ⟨nofun, nofun, nofun, nofun, List.nodup_nil⟩
    obtain ⟨htakes, hgives⟩ := Paged.unmap_gives (h.st.supplied []) hnone.fresh hok
    exact h.call hnone htakes hgives fun f hf => .inl hf
  | store frame words =>
    cases hs
    obtain ⟨hst, hleaf⟩ := h.st.store hok words
    refine ⟨hst, fun v hv => ?_, h.passed⟩
    rw [← h.lookup v hv, Paged.lookup_eq, Paged.lookup_eq, hleaf]

end

/-- In every history of an address space it is the map that its calls have built, and it owns its
tables and the frames that it has allocated. -/
theorem space_sound {s : Space} (h : Run.Reachable step Ok Starts s) : Sound s :=
  Inv.sound (h.invariant Inv (fun _ => inv_start) fun _ _ _ hi hok hs => hi.step hok hs)

/-- A new space with its root at 0x40000000. -/
def fresh : Space :=
  { st := { mem := fun _ _ => 0, supply := [], space := ⟨0x40000000, [0x40000000]⟩, anon := [] }
    calls := []
    passed := [] }

theorem create_fresh : Paged.create (fun _ _ => 0) [0x40000000] = some fresh.st := by
  rw [Paged.create, Function.update_eq_self]
  rfl

theorem space_sound_twoPages : ∃ s : Space, s.st.translate 0x401010 = some 0x80000010 ∧
    s.st.translate 0x402010 = none ∧ Sound s := by
  have hrun : (Run.exec step fresh
      [.map 0x401000 0x80000000 2 .UserReadOnly [0x40001000, 0x40002000, 0x40003000],
        .unmap 0x402000 1]).map (fun s => (s.st.translate 0x401010, s.st.translate 0x402010)) =
      some (some 0x80000010, none) := by decide
  obtain ⟨s, hs, htranslate⟩ := Option.map_eq_some_iff.mp hrun
  have hstart : Starts fresh := ⟨⟨_, _, create_fresh⟩, rfl, rfl⟩
  have hok : Run.Meets step Ok fresh
      [.map 0x401000 0x80000000 2 .UserReadOnly [0x40001000, 0x40002000, 0x40003000],
        .unmap 0x402000 1] := by
    have hunmap : 0x402000 + 1 * PAGE_SIZE ≤ 2 ^ 48 := by decide
    refine ⟨⟨by decide, by decide, ⟨?_, ?_, ?_, ?_, ?_⟩, by decide⟩, fun s _ =>
      ⟨hunmap, fun _ _ => trivial⟩⟩ <;> decide
  exact ⟨s, congrArg Prod.fst htranslate, congrArg Prod.snd htranslate,
    space_sound (Run.Reachable.exec (.start hstart) hok hs)⟩

end Space

end JungeyOs.Mm
