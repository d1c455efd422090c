import JungeyOs.Blk
import JungeyOs.Lib.Directory
import JungeyOs.Mm.Frames

/-!
# The model store

Models of `kernel/src/model.rs`, as its calls change the store while they hold its lock. A model is
found by its id, and what is behind each of its pages is a frame, nothing yet, or a read that is
under way.

Results:
* `model_modify`, `pageAt_modify`: what a change of one model does to the others.
* `pageAt_setPage`: a page after a fault or `reclaim` has set its state.
* `readPage_eq`: a page that is read holds the bytes of the file.
-/

namespace JungeyOs.ModelStore

open Mm (Page PAGE_SIZE)

/-! ## The store -/

/-- `SECTORS_PER_PAGE` (line 28). -/
def SECTORS_PER_PAGE : ℕ := PAGE_SIZE / SECTOR_SIZE

/-- `Mapping` (lines 30–35). -/
structure Mapping where
  pid : ℕ
  base : ℕ
  deriving DecidableEq

/-- `PageState` (lines 37–48). -/
inductive PageState
  | absent
  | loading
  | resident (frame : ℕ)
  deriving DecidableEq

/-- `Model` (lines 50–64). -/
structure Model where
  id : ℕ
  hash : UInt64
  size : ℕ
  startSector : ℕ
  pages : List PageState
  mappings : List Mapping
  refs : ℕ
  faults : ℕ
  reclaimed : ℕ

/-- `resident_pages` (lines 70–75). -/
def Model.residentPages (m : Model) : ℕ :=
  m.pages.countP fun p => match p with
    | .resident _ => true
    | _ => false

/-! ## Changes of a model -/

namespace Model

/-- Line 149. -/
def referred (m : Model) : Model := { m with refs := m.refs + 1 }

/-- Line 176. -/
def attached (mapping : Mapping) (m : Model) : Model := { m with mappings := m.mappings ++ [mapping] }

/-- Lines 198 and 203. -/
def faulted (m : Model) : Model := { m with faults := m.faults + 1 }

/-- `m.pages[index] = p`. -/
def setPage (index : ℕ) (p : PageState) (m : Model) : Model := { m with pages := m.pages.set index p }

/-- Lines 316–317. -/
def evicted (index : ℕ) (m : Model) : Model :=
  { m with pages := m.pages.set index .absent, reclaimed := m.reclaimed + 1 }

end Model

/-- `Store` (lines 78–81). -/
structure Store where
  models : List Model
  nextId : ℕ

/-- `STORE` at boot (line 83). -/
def Store.boot : Store := ⟨[], 1⟩

/-! ## Reading the file -/

/-- `hash_bytes` (lines 90–99). -/
def hashBytes (seed : UInt64) (data : List UInt8) : UInt64 :=
  data.foldl (fun h b => (h ^^^ b.toUInt64) * 0x00000100000001B3) seed

/-- The loop of `open` (lines 139–145) from sector `s` on; `read` is `blk::read_sector`. -/
def hashFrom (read : ℕ → Option Sector) (start : ℕ) : (n s left : ℕ) → UInt64 → Option UInt64
  | 0, _, _, hash => some hash
  | sectors + 1, s, left, hash =>
    match read (start + s) with
    | none => none
    | some sector =>
      let n := min left SECTOR_SIZE
      hashFrom read start sectors (s + 1) (left - n) (hashBytes hash (sector.toList.take n))

/-- The hash of a file (lines 136–145). -/
def hashFile (read : ℕ → Option Sector) (start size : ℕ) : Option UInt64 :=
  hashFrom read start ((size + SECTOR_SIZE - 1) / SECTOR_SIZE) 0 size 0xcbf29ce484222325

/-- The loop of `fault` (lines 248–270) from sector `s` on. -/
def readFrom (read : ℕ → Option Sector) (start size index : ℕ) : (n s : ℕ) → Page → Option Page
  | 0, _, page => some page
  | sectors + 1, s, page =>
    let byteOff := index * PAGE_SIZE + s * SECTOR_SIZE
    if size ≤ byteOff then some page
    else match read (start + index * SECTORS_PER_PAGE + s) with
      | none => none
      | some sector =>
        let n := min (size - byteOff) SECTOR_SIZE
        readFrom read start size index sectors (s + 1)
          (Bytes.blit page (s * SECTOR_SIZE) (Bytes.slice sector 0 n))

/-- A page as `fault` reads it (lines 244–270). -/
def readPage (read : ℕ → Option Sector) (start size index : ℕ) : Option Page :=
  readFrom read start size index SECTORS_PER_PAGE 0 (Vector.replicate PAGE_SIZE 0)

/-- Byte `offset` of a file of `size` bytes that starts at sector `start`, and 0 past its end. -/
def fileByte (disk : Disk) (start size offset : ℕ) : UInt8 :=
  if offset < size then
    (disk (start + offset / SECTOR_SIZE)).get ⟨offset % SECTOR_SIZE, Nat.mod_lt _ (by decide)⟩
  else 0

/-- What page `index` of the file should hold. -/
def filePage (disk : Disk) (start size index : ℕ) : Page :=
  Vector.ofFn fun k => fileByte disk start size (index * PAGE_SIZE + k)

section

variable {disk : Disk} {io : ℕ → Bool} {start size index : ℕ} {page page' : Page}

/-- `blk::read_sector`, where `io` says which sectors the driver can read. -/
def readSector (disk : Disk) (io : ℕ → Bool) (sector : ℕ) : Option Sector :=
  if io sector then some (disk sector) else none

/-- The first `n` bytes of a page are those of the file, and the others are 0. -/
def FilledTo (disk : Disk) (start size index n : ℕ) (page : Page) : Prop :=
  ∀ k (hk : k < PAGE_SIZE), page[k] = if k < n then fileByte disk start size (index * PAGE_SIZE + k) else 0

/-- Where byte `j` of sector `s` of a page is in the file. -/
theorem fileByte_sector {s j : ℕ} (hj : j < SECTOR_SIZE)
    (hlt : index * PAGE_SIZE + (s * SECTOR_SIZE + j) < size) :
    fileByte disk start size (index * PAGE_SIZE + (s * SECTOR_SIZE + j)) =
      (disk (start + index * SECTORS_PER_PAGE + s))[j] := by
  have hpage : PAGE_SIZE = 4096 := rfl
  have hsector : SECTOR_SIZE = 512 := rfl
  have hper : SECTORS_PER_PAGE = 8 := rfl
  have hdiv : start + (index * PAGE_SIZE + (s * SECTOR_SIZE + j)) / SECTOR_SIZE =
      start + index * SECTORS_PER_PAGE + s := by
    rw [hpage, hper]
    rw [hsector] at hj ⊢
    omega
  have hmod : (index * PAGE_SIZE + (s * SECTOR_SIZE + j)) % SECTOR_SIZE = j := by
    rw [hpage]
    rw [hsector] at hj ⊢
    omega
  rw [fileByte, if_pos hlt, hdiv]
  simp only [hmod]
  rfl

/-- A sector of the file goes to its place in the page. -/
theorem FilledTo.blit {s : ℕ} (h : FilledTo disk start size index (s * SECTOR_SIZE) page)
    (hoff : index * PAGE_SIZE + s * SECTOR_SIZE < size) :
    FilledTo disk start size index ((s + 1) * SECTOR_SIZE) (Bytes.blit page (s * SECTOR_SIZE)
      (Bytes.slice (disk (start + index * SECTORS_PER_PAGE + s)) 0
        (min (size - (index * PAGE_SIZE + s * SECTOR_SIZE)) SECTOR_SIZE))) := by
  intro k hk
  have hold := h k hk
  rw [Bytes.getElem_blit _ _ _ hk]
  by_cases hlt : k < s * SECTOR_SIZE
  · rw [if_neg (Nat.not_le.mpr hlt), hold, if_pos hlt, if_pos (by rw [Nat.succ_mul]; omega)]
  · rw [if_pos (Nat.not_lt.mp hlt)]
    rw [if_neg hlt] at hold
    obtain ⟨j, rfl⟩ := Nat.exists_eq_add_of_le (Nat.not_lt.mp hlt)
    rw [Nat.add_sub_cancel_left]
    by_cases hj : j < SECTOR_SIZE
    · rw [if_pos (by rw [Nat.succ_mul]; omega)]
      by_cases hin : j < min (size - (index * PAGE_SIZE + s * SECTOR_SIZE)) SECTOR_SIZE
      · rw [Vector.getElem?_eq_getElem hin, Option.getD_some, Bytes.getElem_slice _ _ hin,
          Nat.zero_add, Vector.getElem?_eq_getElem hj, Option.getD_some, fileByte_sector hj (by omega)]
      · rw [Vector.getElem?_eq_none (Nat.not_lt.mp hin), Option.getD_none, hold, fileByte,
          if_neg (by omega)]
    · rw [Vector.getElem?_eq_none (by omega), Option.getD_none, hold,
        if_neg (by rw [Nat.succ_mul]; omega)]

theorem readFrom_eq {n : ℕ} : ∀ {s : ℕ} {page : Page}, s + n = SECTORS_PER_PAGE →
    FilledTo disk start size index (s * SECTOR_SIZE) page →
    readFrom (readSector disk io) start size index n s page = some page' →
    page' = filePage disk start size index := by
  have hwhole : SECTORS_PER_PAGE * SECTOR_SIZE = PAGE_SIZE := by decide
  induction n with
  | zero =>
    intro s page hs h hread
    cases hread
    rw [Nat.add_zero] at hs
    refine Vector.ext fun k hk => ?_
    rw [h k hk, hs, hwhole, if_pos hk, filePage, Vector.getElem_ofFn]
  | succ n ih =>
    intro s page hs h hread
    rw [readFrom] at hread
    split_ifs at hread with hend
    · -- the rest of the page is past the end of the file
      cases hread
      refine Vector.ext fun k hk => ?_
      rw [h k hk, filePage, Vector.getElem_ofFn]
      by_cases hlt : k < s * SECTOR_SIZE
      · rw [if_pos hlt]
      · rw [if_neg hlt, fileByte, if_neg (by dsimp only; omega)]
    · cases hsector : readSector disk io (start + index * SECTORS_PER_PAGE + s) with
      | none =>
        rw [hsector] at hread
        cases hread
      | some sector =>
        rw [hsector] at hread
        have hdisk : disk (start + index * SECTORS_PER_PAGE + s) = sector := by
          unfold readSector at hsector
          split_ifs at hsector
          exact Option.some.inj hsector
        exact ih (by omega) (hdisk ▸ h.blit (Nat.not_le.mp hend)) hread

/-- A page that is read holds the bytes of the file, and 0 past its end. -/
theorem readPage_eq (h : readPage (readSector disk io) start size index = some page') :
    page' = filePage disk start size index := by
  refine readFrom_eq (s := 0) (Nat.zero_add _) (fun k hk => ?_) h
  rw [Nat.zero_mul, if_neg (Nat.not_lt_zero _), Vector.getElem_replicate]

/-- A driver that can read every sector. -/
theorem readFrom_up {n : ℕ} : ∀ {s : ℕ} {page : Page},
    (∀ sector, io sector = true) →
      (readFrom (readSector disk io) start size index n s page).isSome := by
  induction n with
  | zero => exact fun _ => rfl
  | succ n ih =>
    intro s page hio
    rw [readFrom]
    split_ifs
    · rfl
    · rw [readSector, if_pos (hio _)]
      exact ih hio

end

/-! ## The calls -/

namespace Store

/-- `store.models.iter().find(|m| m.id == id)`. -/
def model (st : Store) (id : ℕ) : Option Model := Dir.lookup Model.id st.models id

/-- A change of the model that `iter_mut().find(|m| m.id == id)` finds. -/
def modify (st : Store) (id : ℕ) (g : Model → Model) : Store :=
  match st.model id with
  | none => st
  | some m => { st with models := Dir.put Model.id st.models id (g m) }

def setPage (st : Store) (id index : ℕ) (p : PageState) : Store :=
  st.modify id (Model.setPage index p)

/-- What is behind page `index` of the model. -/
def pageAt (st : Store) (id index : ℕ) : Option PageState :=
  (st.model id).bind fun m => m.pages[index]?

/-- `open` under the lock (lines 147–168). -/
def enter (st : Store) (hash : UInt64) (start size : ℕ) : ℕ × Store :=
  match st.models.find? fun m => m.hash = hash with
  | some m => (m.id, st.modify m.id Model.referred)
  | none =>
    let total := (size + PAGE_SIZE - 1) / PAGE_SIZE
    (st.nextId,
      { models := st.models ++
          [⟨st.nextId, hash, size, start, List.replicate total .absent, [], 1, 0, 0⟩]
        nextId := st.nextId + 1 })

/-- `attach` (lines 171–178). -/
def attach (st : Store) (id pid base : ℕ) : Except String (ℕ × Store) :=
  match st.model id with
  | none => .error "no such model"
  | some m =>
    .ok (m.size, st.modify id (Model.attached ⟨pid, base⟩))

/-- What `fault` finds under the lock. -/
inductive Found
  | nothing
  | resident (frame : ℕ)
  | loading
  | claimed
  deriving DecidableEq

/-- `fault` under the lock, at the start of a round (lines 188–208). -/
def lookUp (st : Store) (id index : ℕ) : Found × Store :=
  match st.pageAt id index with
  | none => (.nothing, st)
  | some (.resident frame) =>
    (.resident frame, st.modify id Model.faulted)
  | some .loading => (.loading, st)
  | some .absent =>
    (.claimed, (st.modify id Model.faulted).setPage id index .loading)

/-- `(id, hash, size, resident pages, total pages, faults, reclaimed, refs)` (line 325). -/
structure Stat where
  id : ℕ
  hash : UInt64
  size : ℕ
  resident : ℕ
  total : ℕ
  faults : ℕ
  reclaimed : ℕ
  refs : ℕ

/-- `stat` (lines 326–339). -/
def stat (st : Store) (id : ℕ) : Option Stat :=
  (st.model id).map fun m =>
    ⟨m.id, m.hash, m.size, m.residentPages, m.pages.length, m.faults, m.reclaimed, m.refs⟩

/-! ## Changes of one model -/

section

variable {st : Store} {g : Model → Model} {id id' index i pid base : ℕ} {p : PageState}

theorem model_modify (hg : ∀ m, (g m).id = m.id) (id id' : ℕ) :
    (st.modify id g).model id' = (st.model id').map fun m => if id' = id then g m else m := by
  unfold modify
  cases hm : st.model id with
  | none =>
    show st.model id' = _
    by_cases h : id' = id
    · rw [h, hm]
      rfl
    · simp only [if_neg h, Option.map_id']
  | some m =>
    have hid : m.id = id := Dir.key_of_lookup hm
    show Dir.lookup Model.id (Dir.put Model.id st.models id (g m)) id' = _
    by_cases h : id' = id
    · rw [h, Dir.lookup_put_self (by rw [hg, hid]), hm, Option.map_some, if_pos rfl]
    · simp only [if_neg h, Option.map_id']
      exact Dir.lookup_put_ne (by rw [hg, hid]; exact Ne.symm h) (Ne.symm h)

/-- A change that keeps the pages. -/
theorem pageAt_modify (hg : ∀ m, (g m).id = m.id) (hpages : ∀ m, (g m).pages = m.pages)
    (id id' i : ℕ) : (st.modify id g).pageAt id' i = st.pageAt id' i := by
  rw [pageAt, pageAt, model_modify hg]
  cases st.model id' with
  | none => rfl
  | some m =>
    rw [Option.map_some, Option.bind_some, Option.bind_some]
    split_ifs
    · rw [hpages]
    · rfl

/-- A change that sets the state of one page. -/
theorem pageAt_modify_set (hg : ∀ m, (g m).id = m.id)
    (hpages : ∀ m, (g m).pages = m.pages.set index p) (id id' i : ℕ) :
    (st.modify id g).pageAt id' i =
      if id' = id ∧ i = index then (st.pageAt id' i).map fun _ => p else st.pageAt id' i := by
  rw [pageAt, pageAt, model_modify hg]
  cases st.model id' with
  | none => simp
  | some m =>
    rw [Option.map_some, Option.bind_some, Option.bind_some]
    by_cases hid : id' = id
    · by_cases hi : i = index
      · rw [if_pos hid, if_pos ⟨hid, hi⟩, hpages, hi, List.getElem?_set_self']
        rfl
      · rw [if_pos hid, if_neg fun h => hi h.2, hpages, List.getElem?_set_ne (Ne.symm hi)]
    · rw [if_neg hid, if_neg fun h => hid h.1]

theorem pageAt_setPage (id index : ℕ) (p : PageState) (id' i : ℕ) :
    (st.setPage id index p).pageAt id' i =
      if id' = id ∧ i = index then (st.pageAt id' i).map fun _ => p else st.pageAt id' i :=
  pageAt_modify_set (g := Model.setPage index p) (fun _ => rfl) (fun _ => rfl) id id' i

/-- No two models have one id. -/
structure Numbered (st : Store) : Prop where
  ids : (st.models.map Model.id).Nodup
  next : ∀ m ∈ st.models, m.id < st.nextId

/-- Process `pid` has the model at `base`. -/
def Maps (st : Store) (id pid base : ℕ) : Prop := ∃ m, st.model id = some m ∧ ⟨pid, base⟩ ∈ m.mappings

/-- A change that keeps the mappings, or adds to them. -/
theorem Maps.modify (h : st.Maps id' pid base) (hg : ∀ m, (g m).id = m.id)
    (hmappings : ∀ m, m.mappings ⊆ (g m).mappings) (id : ℕ) :
    (st.modify id g).Maps id' pid base := by
  obtain ⟨m, hm, hmem⟩ := h
  refine ⟨if id' = id then g m else m, by rw [model_modify hg, hm, Option.map_some], ?_⟩
  split_ifs
  · exact hmappings m hmem
  · exact hmem

theorem Numbered.modify (h : st.Numbered) (hg : ∀ m, (g m).id = m.id) (id : ℕ) :
    (st.modify id g).Numbered := by
  unfold Store.modify
  cases hm : st.model id with
  | none => exact h
  | some m =>
    have hid : m.id = id := Dir.key_of_lookup hm
    have hmap := Dir.map_put (e := g m) hm (by rw [hg, hid])
    refine ⟨hmap ▸ h.ids, fun x hx => ?_⟩
    have hx' : x.id ∈ st.models.map Model.id := hmap ▸ List.mem_map_of_mem hx
    obtain ⟨y, hy, hyx⟩ := List.mem_map.mp hx'
    exact hyx ▸ h.next y hy

/-- A model of the list is the one that its id leads to. -/
theorem Numbered.model_of_mem (h : st.Numbered) {m : Model} (hm : m ∈ st.models) :
    st.model m.id = some m := by
  have hids := h.ids
  unfold model
  generalize st.models = l at hm hids ⊢
  induction l with
  | nil => cases hm
  | cons y l ih =>
    rw [List.map_cons, List.nodup_cons] at hids
    rw [Dir.lookup_cons]
    rcases List.mem_cons.mp hm with rfl | hm
    · rw [if_pos rfl]
    · have hne : y.id ≠ m.id := fun heq => hids.1 (heq ▸ List.mem_map_of_mem hm)
      rw [if_neg hne, ih hm hids.2]

/-! ## `open` -/

section

variable {hash : UInt64} {start size : ℕ}

/-- `open` finds the model, or makes a new one. -/
theorem enter_cases (st : Store) (hash : UInt64) (start size : ℕ) :
    (∃ m, m ∈ st.models ∧ m.hash = hash ∧ st.enter hash start size =
      (m.id, st.modify m.id Model.referred)) ∨
    (∀ m ∈ st.models, m.hash ≠ hash) ∧ st.enter hash start size = (st.nextId,
      { models := st.models ++ [⟨st.nextId, hash, size, start,
          List.replicate ((size + PAGE_SIZE - 1) / PAGE_SIZE) .absent, [], 1, 0, 0⟩]
        nextId := st.nextId + 1 }) := by
  unfold enter
  cases hm : st.models.find? fun m => m.hash = hash with
  | none =>
    have hnone := List.find?_eq_none.mp hm
    exact .inr ⟨fun m hmem hhash => hnone m hmem (decide_eq_true hhash), rfl⟩
  | some m =>
    exact .inl ⟨m, List.mem_of_find?_eq_some hm, by simpa using List.find?_some hm, rfl⟩

theorem Numbered.enter (h : st.Numbered) (hash : UInt64) (start size : ℕ) :
    (st.enter hash start size).2.Numbered := by
  rcases enter_cases st hash start size with ⟨m, -, -, heq⟩ | ⟨-, heq⟩
  · rw [heq]
    exact h.modify (g := Model.referred) (fun _ => rfl) _
  · rw [heq]
    refine ⟨?_, fun m hm => ?_⟩
    · rw [List.map_append, List.map_singleton]
      refine List.nodup_append.mpr ⟨h.ids, List.pairwise_singleton _ _, ?_⟩
      rintro x hx y hy rfl
      obtain ⟨m, hm, rfl⟩ := List.mem_map.mp hx
      rw [List.mem_singleton] at hy
      exact (h.next m hm).ne hy
    · rcases List.mem_append.mp hm with hm | hm
      · exact (h.next m hm).trans (Nat.lt_succ_self _)
      · rw [List.mem_singleton] at hm
        subst hm
        exact Nat.lt_succ_self _

/-- A model that was there stays, but for its references. -/
theorem model_enter (hash : UInt64) (start size : ℕ) {m : Model} (hm : st.model id = some m) :
    ∃ refs, (st.enter hash start size).2.model id = some { m with refs := refs } := by
  rcases enter_cases st hash start size with ⟨x, -, -, heq⟩ | ⟨-, heq⟩
  · rw [heq, model_modify (g := Model.referred) fun _ => rfl, hm, Option.map_some]
    split_ifs
    · exact ⟨_, rfl⟩
    · exact ⟨m.refs, rfl⟩
  · refine ⟨m.refs, ?_⟩
    rw [heq]
    have hfound : st.models.find? (fun x => x.id = id) = some m := hm
    show List.find? _ (st.models ++ _) = _
    rw [List.find?_append, hfound]
    rfl

/-- A page that was not there is not there yet. -/
theorem pageAt_enter (hash : UInt64) (start size : ℕ) {p : PageState}
    (hp : (st.enter hash start size).2.pageAt id i = some p) :
    st.pageAt id i = some p ∨ p = .absent ∧ st.pageAt id i = none := by
  cases hm : st.model id with
  | some m =>
    obtain ⟨refs, hm'⟩ := model_enter hash start size hm
    rw [pageAt, hm'] at hp
    rw [pageAt, hm]
    exact .inl hp
  | none =>
    rcases enter_cases st hash start size with ⟨x, -, -, heq⟩ | ⟨-, heq⟩
    · rw [heq, pageAt_modify (g := Model.referred) (fun _ => rfl) fun _ => rfl] at hp
      exact .inl hp
    · refine .inr ⟨?_, by rw [pageAt, hm]; rfl⟩
      obtain ⟨m, hm', hi⟩ := Option.bind_eq_some_iff.mp hp
      have hmem : m ∈ (st.enter hash start size).2.models := Dir.mem_of_lookup hm'
      rw [heq] at hmem
      rcases List.mem_append.mp hmem with hmem | hmem
      · have hid : m.id = id := Dir.key_of_lookup hm'
        have hnone := List.find?_eq_none.mp hm m hmem
        exact absurd (decide_eq_true hid) hnone
      · rw [List.mem_singleton] at hmem
        subst hmem
        exact List.eq_of_mem_replicate (List.mem_of_getElem? hi)

end

/-! ## `fault` under the lock -/

/-- What `fault` finds, and what it does to the store. -/
theorem lookUp_cases (st : Store) (id index : ℕ) :
    (st.pageAt id index = none ∧ st.lookUp id index = (.nothing, st)) ∨
    (∃ frame, st.pageAt id index = some (.resident frame) ∧ st.lookUp id index =
      (.resident frame, st.modify id Model.faulted)) ∨
    (st.pageAt id index = some .loading ∧ st.lookUp id index = (.loading, st)) ∨
    st.pageAt id index = some .absent ∧ st.lookUp id index =
      (.claimed, (st.modify id Model.faulted).setPage id index .loading) := by
  unfold lookUp
  cases hp : st.pageAt id index with
  | none => exact .inl ⟨rfl, rfl⟩
  | some p =>
    cases p with
    | resident frame => exact .inr (.inl ⟨frame, rfl, rfl⟩)
    | loading => exact .inr (.inr (.inl ⟨rfl, rfl⟩))
    | absent => exact .inr (.inr (.inr ⟨rfl, rfl⟩))

end

end Store

end JungeyOs.ModelStore
