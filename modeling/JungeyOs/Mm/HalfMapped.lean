import JungeyOs.Mm.Space

/-!
# Calls that fail half way

`AddressSpace::map` and `map_anonymous` (`kernel/src/mm/paging.rs`, lines 127–150) enter the pages of
a range one by one, and return from the middle of the loop when the allocator has no frame left. Here
a space takes calls with any arguments, those that fail too, and what they write is kept in a log.

`va + i * PAGE_SIZE` wraps around at 2^64. That makes no difference here: `index` looks at bits 12
to 47, and a descriptor has 64 bits.

Results:
* `call_spec`: what a call writes, and when it gets through.
* `Written.leaf_eq`: a page has the descriptor that was last written for it.
* `unchanged_iff`: a call that fails leaves the mapping as it was exactly when every page that it came
  to had the descriptor already that it wrote.
-/

namespace JungeyOs.Mm

open Radix (walk find Reaches)

/-! ## What a call writes -/

/-- What a call writes for a page: a descriptor, or none. -/
structure Write where
  page : ℕ
  entry : Option UInt64

/-- The last write to a page, if there is one; the list has the last one first. Pages whose numbers
agree in the lower 36 bits share an entry. -/
def lastWrite (page : ℕ) (log : List Write) : Option Write :=
  log.find? fun w => w.page % 2 ^ 36 = page % 2 ^ 36

/-- The descriptor of a page after the writes. -/
def written (log : List Write) (page : ℕ) : Option UInt64 := (lastWrite page log).bind Write.entry

/-- The writes to the first `n` pages from `va` on. -/
def pageWrites (va : ℕ) (entry : ℕ → Option UInt64) (n : ℕ) : List Write :=
  ((List.range n).map fun j => ⟨va / PAGE_SIZE + j, entry j⟩).reverse

namespace Paged

/-- The permission of a page: the bits of its descriptor that are not the address. -/
def permission (s : Paged) (va : ℕ) : Option UInt64 := (s.leaf va).map fun e => e &&& ~~~ADDR_MASK

/-- A call, whether it succeeds or fails. -/
def call (s : Paged) : Space.Act → Except String Unit × Paged
  | .map va pa pages perm supply => ({ s with supply := supply } : Paged).map va pa pages perm
  | .mapAnonymous va pages perm supply =>
    ({ s with supply := supply } : Paged).mapAnonymous va pages perm
  | .unmap va pages => (.ok (), ({ s with supply := [] } : Paged).unmap va pages)
  | .store frame words => (.ok (), { s with mem := Function.update s.mem frame words })

/-- A call writes as long as the allocator has the frames for its pages. -/
def writes (s : Paged) : Space.Act → List Write
  | .map va pa pages perm supply =>
    if va % PAGE_SIZE = 0 ∧ pa % PAGE_SIZE = 0 then
      pageWrites va (mapEntry pa perm) (room { s with supply := supply } 0 va pages)
    else []
  | .mapAnonymous va pages perm supply =>
    if va % PAGE_SIZE = 0 then
      pageWrites va
        (fun j => (given { s with supply := supply } va j).map fun f => f.toUInt64 ||| perm.bits)
        (room { s with supply := supply } 1 va pages)
    else []
  | .unmap va pages => pageWrites va (fun _ => none) pages
  | .store _ _ => []

/-- The call is aligned, and the allocator has the frames for all of its pages. -/
def Fits (s : Paged) : Space.Act → Prop
  | .map va pa pages _ supply => (va % PAGE_SIZE = 0 ∧ pa % PAGE_SIZE = 0) ∧
      room { s with supply := supply } 0 va pages = pages
  | .mapAnonymous va pages _ supply => pages = 0 ∨ va % PAGE_SIZE = 0 ∧
      room { s with supply := supply } 1 va pages = pages
  | .unmap _ _ => True
  | .store _ _ => True

/-- The arguments are any. The allocator hands out frames that the space does not own, and nobody
writes to the tables. -/
def Ok (s : Paged) : Space.Act → Prop
  | .map _ _ _ _ supply => Fresh { s with supply := supply }
  | .mapAnonymous _ _ _ supply => Fresh { s with supply := supply }
  | .unmap _ _ => True
  | .store frame _ => ¬Reaches target s.mem s.space.root 3 frame

/-- Every address and every permission is as it was. -/
def Unchanged (s s' : Paged) : Prop :=
  ∀ v, s'.translate v = s.translate v ∧ s'.permission v = s.permission v

end Paged

/-! ## A space and its log -/

structure Written where
  st : Paged
  log : List Write

namespace Written

def step (s : Written) (a : Space.Act) : Option Written :=
  some { st := (s.st.call a).2, log := s.st.writes a ++ s.log }

def Ok (s : Written) (a : Space.Act) : Prop := s.st.Ok a

/-- A new space. -/
def Starts (s : Written) : Prop := (∃ mem supply, Paged.create mem supply = some s.st) ∧ s.log = []

end Written

/-! ## The last write -/

theorem pageOf_add_mul (va j : ℕ) : pageOf (va + j * PAGE_SIZE) = (va / PAGE_SIZE + j) % 2 ^ 36 := by
  rw [pageOf, Nat.add_mul_div_right _ _ (show 0 < PAGE_SIZE by decide)]

theorem lastWrite_append (page : ℕ) (new old : List Write) :
    lastWrite page (new ++ old) = (lastWrite page new).or (lastWrite page old) :=
  List.find?_append

theorem lastWrite_pageWrites (page va : ℕ) (entry : ℕ → Option UInt64) (n : ℕ) :
    (∃ j < n, lastWrite page (pageWrites va entry n) = some ⟨va / PAGE_SIZE + j, entry j⟩ ∧
      (va / PAGE_SIZE + j) % 2 ^ 36 = page % 2 ^ 36 ∧
      ∀ k, j < k → k < n → (va / PAGE_SIZE + k) % 2 ^ 36 ≠ page % 2 ^ 36) ∨
    lastWrite page (pageWrites va entry n) = none ∧
      ∀ j < n, (va / PAGE_SIZE + j) % 2 ^ 36 ≠ page % 2 ^ 36 := by
  induction n with
  | zero => exact .inr ⟨rfl, nofun⟩
  | succ n ih =>
    have hlast : pageWrites va entry (n + 1) =
        ⟨va / PAGE_SIZE + n, entry n⟩ :: pageWrites va entry n := by
      simp [pageWrites, List.range_succ]
    rw [hlast]
    by_cases hn : (va / PAGE_SIZE + n) % 2 ^ 36 = page % 2 ^ 36
    · refine .inl ⟨n, by omega, ?_, hn, fun k hlt hk => by omega⟩
      exact List.find?_cons_of_pos (decide_eq_true hn)
    · have hskip : lastWrite page (⟨va / PAGE_SIZE + n, entry n⟩ :: pageWrites va entry n) =
          lastWrite page (pageWrites va entry n) := List.find?_cons_of_neg (by simp only [hn]; decide)
      rw [hskip]
      rcases ih with ⟨j, hj, hw, hpage, hothers⟩ | ⟨hnone, hothers⟩
      · refine .inl ⟨j, by omega, hw, hpage, fun k hlt hk => ?_⟩
        by_cases hkn : k = n
        · rw [hkn]
          exact hn
        · exact hothers k hlt (by omega)
      · refine .inr ⟨hnone, fun j hj => ?_⟩
        by_cases hjn : j = n
        · rw [hjn]
          exact hn
        · exact hothers j (by omega)

namespace Paged

section

variable {s s' : Paged} {a : Space.Act} {va : ℕ}

/-- The pages that a call came to have what it wrote last, the others what they had. -/
theorem Enters.leaf_eq {entry : ℕ → Option UInt64} {n : ℕ} (h : Enters s s' va entry n) (v : ℕ) :
    s'.leaf v =
      ((lastWrite (v / PAGE_SIZE) (pageWrites va entry n)).map Write.entry).getD (s.leaf v) := by
  rcases lastWrite_pageWrites (v / PAGE_SIZE) va entry n with
    ⟨j, hj, hw, hpage, hothers⟩ | ⟨hnone, hothers⟩
  · rw [hw]
    apply h.last j hj
    · intro k hlt hk
      rw [pageOf_add_mul, pageOf_add_mul, hpage]
      exact hothers k hlt hk
    · rw [pageOf_add_mul, hpage]
      rfl
  · rw [hnone]
    apply h.others
    intro j hj
    rw [pageOf_add_mul]
    exact hothers j hj

/-- A call leaves a well-formed space behind, with what it wrote. -/
theorem call_spec (h : Inv s) (hok : Ok s a) : Inv (s.call a).2 ∧
    (∀ v, (s.call a).2.leaf v =
      ((lastWrite (v / PAGE_SIZE) (s.writes a)).map Write.entry).getD (s.leaf v)) ∧
    ((s.call a).1 = .ok () ↔ s.Fits a) := by
  cases a with
  | map va pa pages perm supply =>
    have hs := h.supplied supply
    by_cases halign : va % PAGE_SIZE = 0 ∧ pa % PAGE_SIZE = 0
    · obtain ⟨htakes, henters, hgot⟩ := map_spec hs hok rfl halign
      refine ⟨htakes.inv, fun v => ?_, ?_⟩
      · rw [writes, if_pos halign]
        exact henters.leaf_eq v
      · exact hgot.trans (and_iff_right halign).symm
    · rw [call, map_unaligned halign, writes, if_neg halign]
      exact ⟨hs, fun v => rfl, iff_of_false nofun fun hfits => halign hfits.1⟩
  | mapAnonymous va pages perm supply =>
    have hs := h.supplied supply
    by_cases halign : va % PAGE_SIZE = 0
    · obtain ⟨frames, htakes, henters, -, hgot, -⟩ := mapAnonymous_spec hs hok rfl halign
      refine ⟨htakes.inv, fun v => ?_, ?_⟩
      · rw [writes, if_pos halign]
        exact henters.leaf_eq v
      · constructor
        · exact fun hr => .inr ⟨halign, hgot.mp hr⟩
        · rintro (rfl | ⟨-, hroom⟩)
          · rfl
          · exact hgot.mpr hroom
    · obtain ⟨frames, htakes, hsame, hgot⟩ := mapAnonymous_unaligned hs hok rfl halign
      refine ⟨htakes.inv, fun v => ?_, ?_⟩
      · rw [writes, if_neg halign]
        exact hsame v
      · constructor
        · exact fun hr => .inl (hgot hr).1
        · rintro (rfl | ⟨hva, -⟩)
          · rfl
          · exact absurd hva halign
  | unmap va pages =>
    have hnone : Fresh { s with supply := [] } := ⟨nofun, nofun, nofun, List.nodup_nil⟩
    obtain ⟨htakes, henters⟩ := unmap_spec va pages (h.supplied []) hnone
    exact ⟨htakes.inv, henters.leaf_eq, iff_of_true rfl trivial⟩
  | store frame words =>
    obtain ⟨hinv, hsame⟩ := h.store hok words
    exact ⟨hinv, hsame, iff_of_true rfl trivial⟩

/-- A descriptor is its address and its other bits. -/
theorem descriptor_inj {e e' : UInt64} (haddr : e &&& ADDR_MASK = e' &&& ADDR_MASK)
    (hbits : e &&& ~~~ADDR_MASK = e' &&& ~~~ADDR_MASK) : e = e' := by
  have hsplit : ∀ x : UInt64, x &&& ADDR_MASK ||| x &&& ~~~ADDR_MASK = x := by
    intro x
    apply UInt64.toBitVec_inj.mp
    rw [UInt64.toBitVec_or, UInt64.toBitVec_and, UInt64.toBitVec_and, ← BitVec.and_or_distrib_left,
      ← UInt64.toBitVec_or, UInt64.or_not_self, ← UInt64.toBitVec_and, UInt64.and_neg_one]
  rw [← hsplit e, haddr, hbits, hsplit e']

/-- An address translates as the address in the descriptor of its page. -/
theorem translate_eq_iff {v : ℕ} : s'.translate v = s.translate v ↔
    (s'.leaf v).map (· &&& ADDR_MASK) = (s.leaf v).map (· &&& ADDR_MASK) := by
  rw [translate_eq, translate_eq, lookup_eq, lookup_eq]
  cases s'.leaf v with
  | none => simp [eq_comm]
  | some e' =>
    cases s.leaf v with
    | none => simp
    | some e => simp [UInt64.toNat_inj, -UInt64.toNat_and]

theorem unchanged_iff_leaf : Unchanged s s' ↔ ∀ v, s'.leaf v = s.leaf v := by
  apply forall_congr'
  intro v
  rw [translate_eq_iff, permission, permission]
  constructor
  · rintro ⟨haddr, hbits⟩
    cases he : s.leaf v with
    | none =>
      rw [he] at hbits
      exact Option.map_eq_none_iff.mp hbits
    | some e =>
      rw [he] at haddr hbits
      obtain ⟨e', he', hbits⟩ := Option.map_eq_some_iff.mp hbits
      rw [he'] at haddr
      rw [he', descriptor_inj (Option.some.inj haddr) hbits]
  · intro h
    rw [h]
    exact ⟨rfl, rfl⟩

end

end Paged

namespace Written

section

variable {s s' : Written} {a : Space.Act}

structure Inv (s : Written) : Prop where
  st : s.st.Inv
  leaf : ∀ v, s.st.leaf v = written s.log (v / PAGE_SIZE)

theorem inv_start (hs : Starts s) : Inv s := by
  obtain ⟨⟨mem, supply, hcreate⟩, hlog⟩ := hs
  obtain ⟨hst, hleaf⟩ := Paged.create_spec hcreate
  refine ⟨hst, fun v => ?_⟩
  rw [hleaf, hlog]
  rfl

theorem Inv.step (h : Inv s) (hok : Ok s a) (hs : step s a = some s') : Inv s' := by
  obtain ⟨hst, hleaf, -⟩ := Paged.call_spec h.st hok
  cases hs
  refine ⟨hst, fun v => ?_⟩
  rw [hleaf v, h.leaf v, written, written, lastWrite_append]
  cases lastWrite (v / PAGE_SIZE) (s.st.writes a) with
  | none => rfl
  | some w => rfl

theorem inv (h : Run.Reachable step Ok Starts s) : Inv s :=
  h.invariant Inv (fun _ => inv_start) fun _ _ _ hi hok hs => hi.step hok hs

/-- A call that fails leaves every address and every permission as it was, if and only if each of the
pages that it had come to before it failed had the very descriptor that it wrote there. -/
theorem unchanged_iff (h : Run.Reachable step Ok Starts s) (hok : Ok s a) :
    ((∃ e, (s.st.call a).1 = .error e) → Paged.Unchanged s.st (s.st.call a).2) ↔
      s.st.Fits a ∨ ∀ v w, lastWrite (v / PAGE_SIZE) (s.st.writes a) = some w →
        s.st.leaf v = w.entry := by
  obtain ⟨-, hleaf, hfits⟩ := Paged.call_spec (inv h).st hok
  have hfails : (∃ e, (s.st.call a).1 = .error e) ↔ ¬s.st.Fits a := by
    rw [← hfits]
    cases (s.st.call a).1 with
    | error e => simp
    | ok u => simp
  have hsame : Paged.Unchanged s.st (s.st.call a).2 ↔ ∀ v w,
      lastWrite (v / PAGE_SIZE) (s.st.writes a) = some w → s.st.leaf v = w.entry := by
    rw [Paged.unchanged_iff_leaf]
    apply forall_congr'
    intro v
    rw [hleaf v]
    cases lastWrite (v / PAGE_SIZE) (s.st.writes a) with
    | none => simp
    | some w => simp [eq_comm]
  rw [hfails, hsame]
  exact imp_iff_not_or.trans (or_congr_left not_not)

end

/-- A new space with its root at 0x40000000. -/
def fresh : Written := { st := Space.fresh.st, log := [] }

/-- Two pages on either side of a boundary of 2 MiB. The allocator has the three tables for the first
page, and no table for the second. -/
def acrossBoundary : Space.Act :=
  .map 0x1ff000 0x80000000 2 .UserData [0x40001000, 0x40002000, 0x40003000]

theorem fresh_reachable : Run.Reachable step Ok Starts fresh :=
  .start ⟨⟨_, _, Space.create_fresh⟩, rfl⟩

theorem acrossBoundary_ok : fresh.st.Ok acrossBoundary := by
  refine ⟨?_, ?_, ?_, ?_⟩ <;> decide

theorem unchanged_iff_acrossBoundary :
    ((∃ e, (fresh.st.call acrossBoundary).1 = .error e) →
      Paged.Unchanged fresh.st (fresh.st.call acrossBoundary).2) ↔
      fresh.st.Fits acrossBoundary ∨
        ∀ v w, lastWrite (v / PAGE_SIZE) (fresh.st.writes acrossBoundary) = some w →
          fresh.st.leaf v = w.entry :=
  unchanged_iff fresh_reachable acrossBoundary_ok

/-- The call fails, and its first page stays mapped. -/
theorem half_mapped : ¬∀ (s : Written) (a : Space.Act), Run.Reachable step Ok Starts s → s.st.Ok a →
    (∃ e, (s.st.call a).1 = .error e) → Paged.Unchanged s.st (s.st.call a).2 := by
  intro h
  have hfails : (fresh.st.call acrossBoundary).1 = .error "out of frames for page tables" := by
    decide
  have hbefore : fresh.st.translate 0x1ff000 = none := by decide
  have hafter : (fresh.st.call acrossBoundary).2.translate 0x1ff000 = some 0x80000000 := by decide
  have hsame := (h fresh acrossBoundary fresh_reachable acrossBoundary_ok ⟨_, hfails⟩ 0x1ff000).1
  rw [hbefore, hafter] at hsame
  cases hsame

end Written

end JungeyOs.Mm
