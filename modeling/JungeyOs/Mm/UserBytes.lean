import JungeyOs.Mm.Space

/-!
# The bytes of an address space

The kernel writes to the pages of a process through the linear map: it translates an address, and
copies to the frame. Here memory is read and written by the byte, where `Mm.Paging` has its words.

Results:
* `byteAt_storeBytes`: the bytes of memory after a copy.
* `Paged.Private.store`: where every page has a frame of its own, a copy changes the bytes of the
  space that it is meant for, and no others.
* `Paged.Private.mapAnonymous`: new pages are zero, whatever was there before.
-/

namespace JungeyOs.Mm

open Radix (write)

/-! ## Memory by the byte -/

/-- The word of its frame that an address is in. -/
def wordOf (pa : ℕ) : Fin 512 :=
  ⟨pa % PAGE_SIZE / 8, by
    have hlt := Nat.mod_lt pa PAGE_SIZE_pos
    have hsize : PAGE_SIZE = 4096 := rfl
    omega⟩

/-- The bytes of the word that an address is in. -/
def wordBytes (mem : Words) (pa : ℕ) : List UInt8 :=
  Bytes.leList 8 (mem (pageAlignDown pa) (wordOf pa)).toNat

/-- The byte at an address. -/
def byteAt (mem : Words) (pa : ℕ) : UInt8 := (wordBytes mem pa)[pa % 8]?.getD 0

def setByte (mem : Words) (pa : ℕ) (b : UInt8) : Words :=
  write mem (pageAlignDown pa) (wordOf pa)
    (UInt64.ofNat (Bytes.ofLE ((wordBytes mem pa).set (pa % 8) b)))

/-- `copy_nonoverlapping` to an address. -/
def storeBytes : (mem : Words) → (pa : ℕ) → List UInt8 → Words
  | mem, _, [] => mem
  | mem, pa, b :: bytes => storeBytes (setByte mem pa b) (pa + 1) bytes

/-- What a process sees at an address, if it is mapped. -/
def Paged.user (s : Paged) (va : ℕ) : Option UInt8 := (s.translate va).map (byteAt s.mem)

section

variable {mem : Words} {pa pa' frame : ℕ} {b : UInt8} {bytes : List UInt8}

theorem length_wordBytes : (wordBytes mem pa).length = 8 := Bytes.length_leList _ _

theorem byteAt_setByte :
    byteAt (setByte mem pa b) pa' = if pa' = pa then b else byteAt mem pa' := by
  have hsize : PAGE_SIZE = 4096 := rfl
  by_cases hword : pageAlignDown pa' = pageAlignDown pa ∧ wordOf pa' = wordOf pa
  · obtain ⟨hframe, hindex⟩ := hword
    have hnew : wordBytes (setByte mem pa b) pa' = (wordBytes mem pa).set (pa % 8) b := by
      generalize hl : (wordBytes mem pa).set (pa % 8) b = l
      have hlen : l.length = 8 := by
        rw [← hl, List.length_set, length_wordBytes]
      have hlt : Bytes.ofLE l < 2 ^ 64 := by
        have hbytes := Bytes.ofLE_lt l
        rwa [hlen] at hbytes
      rw [wordBytes, hframe, hindex, setByte, Radix.write_self, hl, UInt64.toNat_ofNat',
        Nat.mod_eq_of_lt hlt, ← hlen]
      exact Bytes.leList_ofLE l
    have hold : wordBytes mem pa' = wordBytes mem pa := by
      rw [wordBytes, wordBytes, hframe, hindex]
    have heq : pa' = pa ↔ pa % 8 = pa' % 8 := by
      have hval := congrArg Fin.val hindex
      simp only [pageAlignDown, wordOf, hsize] at hframe hval
      omega
    rw [byteAt, byteAt, hnew, hold, List.getElem?_set, length_wordBytes]
    have hlt : pa % 8 < 8 := Nat.mod_lt _ (by decide)
    by_cases hpa : pa' = pa
    · rw [if_pos hpa, if_pos (heq.mp hpa), if_pos hlt]
      rfl
    · rw [if_neg hpa, if_neg fun h => hpa (heq.mpr h)]
  · have hne : pa' ≠ pa := by
      rintro rfl
      exact hword ⟨rfl, rfl⟩
    have hold : wordBytes (setByte mem pa b) pa' = wordBytes mem pa' := by
      rw [wordBytes, setByte, Radix.write_of_ne fun hframe hindex => hword ⟨hframe, hindex⟩]
      rfl
    rw [if_neg hne, byteAt, byteAt, hold]

theorem byteAt_storeBytes : byteAt (storeBytes mem pa bytes) pa' =
    if pa ≤ pa' ∧ pa' < pa + bytes.length then bytes[pa' - pa]?.getD 0 else byteAt mem pa' := by
  induction bytes generalizing mem pa with
  | nil =>
    rw [storeBytes, if_neg]
    rintro ⟨hle, hlt⟩
    exact absurd hlt (Nat.not_lt.mpr hle)
  | cons b bytes ih =>
    rw [storeBytes, ih, byteAt_setByte, List.length_cons]
    rcases Nat.lt_trichotomy pa' pa with hlt | rfl | hgt
    · rw [if_neg (by omega), if_neg (by omega), if_neg (by omega)]
    · rw [if_neg (by omega), if_pos rfl, if_pos (by omega), Nat.sub_self]
      rfl
    · have hindex : pa' - pa = pa' - (pa + 1) + 1 := by omega
      rw [if_neg (show pa' ≠ pa by omega), hindex, List.getElem?_cons_succ]
      exact if_congr (by omega) rfl rfl

/-- A copy that stays in its frame changes no other frame. -/
theorem storeBytes_of_ne (h : ∀ i < bytes.length, pageAlignDown (pa + i) ≠ frame) :
    storeBytes mem pa bytes frame = mem frame := by
  induction bytes generalizing mem pa with
  | nil => rfl
  | cons b bytes ih =>
    have hfirst : frame ≠ pageAlignDown pa := (h 0 (by simp)).symm
    rw [storeBytes, ih, setByte, write, Function.update_of_ne hfirst]
    intro i hi
    rw [Nat.add_assoc, Nat.add_comm 1 i]
    exact h (i + 1) (by simpa using hi)

theorem pageAlignDown_add {offset : ℕ} (hdvd : PAGE_SIZE ∣ frame) (hlt : offset < PAGE_SIZE) :
    pageAlignDown (frame + offset) = frame := by
  obtain ⟨k, rfl⟩ := hdvd
  rw [pageAlignDown, Nat.mul_add_div PAGE_SIZE_pos, Nat.div_eq_of_lt hlt, Nat.add_zero,
    Nat.mul_comm]

/-- The bytes of a frame are those of its words. -/
theorem byteAt_congr {mem' : Words} {offset : ℕ} (hdvd : PAGE_SIZE ∣ frame) (hlt : offset < PAGE_SIZE)
    (h : mem' frame = mem frame) : byteAt mem' (frame + offset) = byteAt mem (frame + offset) := by
  unfold byteAt wordBytes
  rw [pageAlignDown_add hdvd hlt, h]

theorem byteAt_zeroed {offset : ℕ} (hdvd : PAGE_SIZE ∣ frame) (hlt : offset < PAGE_SIZE)
    (h : mem frame = fun _ => 0) : byteAt mem (frame + offset) = 0 := by
  have hzero : wordBytes mem (frame + offset) = List.replicate 8 0 := by
    rw [wordBytes, pageAlignDown_add hdvd hlt, h]
    show Bytes.leList 8 (0 : UInt64).toNat = List.replicate 8 0
    decide
  rw [byteAt, hzero, List.getElem?_replicate]
  split_ifs <;> rfl

end

/-! ## Pages with frames of their own -/

namespace Paged

/-- The pages of the space have frames that it has allocated, each its own. -/
structure Private (s : Paged) : Prop where
  inv : Inv s
  fresh : Fresh s
  anon : ∀ v < 2 ^ 48, ∀ f, s.lookup v = some f → f ∈ s.anon
  alone : ∀ v < 2 ^ 48, ∀ w < 2 ^ 48, ∀ f, s.lookup v = some f → s.lookup w = some f →
    v / PAGE_SIZE = w / PAGE_SIZE

section

variable {s s' : Paged} {v f pa va pages : ℕ} {bytes : List UInt8}

theorem dvd_lookup (h : s.lookup v = some f) : PAGE_SIZE ∣ f := by
  obtain ⟨t, -, ht⟩ := Option.bind_eq_some_iff.mp h
  exact dvd_target ht

/-- A copy to a page of the space. -/
theorem Private.store (h : Private s) (hv : v < 2 ^ 48) (hpa : s.translate v = some pa)
    (hfits : v % PAGE_SIZE + bytes.length ≤ PAGE_SIZE) :
    let s' : Paged := { s with mem := storeBytes s.mem pa bytes }
    Private s' ∧ ∀ w < 2 ^ 48, s'.user w =
      if v ≤ w ∧ w < v + bytes.length then bytes[w - v]? else s.user w := by
  intro s'
  have hsize : PAGE_SIZE = 4096 := rfl
  rw [translate_eq] at hpa
  obtain ⟨f, hf, rfl⟩ := Option.map_eq_some_iff.mp hpa
  obtain ⟨a, hfa⟩ := dvd_lookup hf
  rw [hsize] at hfits hfa
  have hmem : s'.mem = Function.update s.mem f (storeBytes s.mem (f + v % PAGE_SIZE) bytes f) := by
    funext g
    by_cases hg : g = f
    · rw [hg, Function.update_self]
    · rw [Function.update_of_ne hg]
      apply storeBytes_of_ne
      intro i hi
      rw [pageAlignDown, hsize]
      omega
  obtain ⟨hinv, hleaf⟩ := h.inv.store (h.inv.apart f (h.anon v hv f hf))
    (storeBytes s.mem (f + v % PAGE_SIZE) bytes f)
  rw [← hmem] at hinv hleaf
  have hlookup : ∀ w, s'.lookup w = s.lookup w := fun w => by
    rw [lookup_eq, lookup_eq]
    exact congrArg _ (hleaf w)
  refine ⟨⟨hinv, ⟨h.fresh.aligned, h.fresh.low, h.fresh.notOwned, h.fresh.once⟩, fun w hw g hg => ?_,
    fun w hw w' hw' g hg hg' => ?_⟩, fun w hw => ?_⟩
  · rw [hlookup] at hg
    exact h.anon w hw g hg
  · rw [hlookup] at hg hg'
    exact h.alone w hw w' hw' g hg hg'
  · -- the bytes are all in the page of `v`
    have hin : v ≤ w ∧ w < v + bytes.length → s.lookup w = some f := by
      rintro ⟨hle, hlt⟩
      have hpage : pageOf w = pageOf v := by
        rw [pageOf_of_lt hw, pageOf_of_lt hv, hsize]
        omega
      rw [lookup_eq, leaf_congr hpage, ← lookup_eq, hf]
    rw [user, user, translate_eq, translate_eq, hlookup]
    cases hg : s.lookup w with
    | none =>
      rw [if_neg]
      · rfl
      · intro h
        rw [hin h] at hg
        cases hg
    | some g =>
      obtain ⟨b, hgb⟩ := dvd_lookup hg
      rw [hsize] at hgb
      have hrange : (f + v % PAGE_SIZE ≤ g + w % PAGE_SIZE ∧
          g + w % PAGE_SIZE < f + v % PAGE_SIZE + bytes.length) ↔ v ≤ w ∧ w < v + bytes.length := by
        rw [hsize]
        constructor
        · intro hbyte
          have hframe : g = f := by omega
          have hpage := h.alone w hw v hv f (hframe ▸ hg) hf
          rw [hsize] at hpage
          omega
        · intro hbyte
          have hframe : f = g := Option.some.inj ((hin hbyte).symm.trans hg)
          omega
      show some (byteAt (storeBytes s.mem (f + v % PAGE_SIZE) bytes) (g + w % PAGE_SIZE)) = _
      rw [byteAt_storeBytes]
      by_cases hbyte : v ≤ w ∧ w < v + bytes.length
      · have hframe : f = g := Option.some.inj ((hin hbyte).symm.trans hg)
        have hoffset : g + w % PAGE_SIZE - (f + v % PAGE_SIZE) = w - v := by
          rw [hsize]
          omega
        have hlen : w - v < bytes.length := by omega
        rw [if_pos (hrange.mpr hbyte), if_pos hbyte, hoffset, List.getElem?_eq_getElem hlen]
        rfl
      · rw [if_neg (fun h => hbyte (hrange.mp h)), if_neg hbyte]
        rfl

/-- Pages that are mapped are new, and zero; the others are as they were. -/
theorem Private.mapAnonymous {perm : Perm} (h : Private s) (hva : va + pages * PAGE_SIZE ≤ 2 ^ 48)
    (hm : s.mapAnonymous va pages perm = (.ok (), s')) :
    Private s' ∧ ∀ v < 2 ^ 48, s'.user v =
      if va / PAGE_SIZE ≤ v / PAGE_SIZE ∧ v / PAGE_SIZE < va / PAGE_SIZE + pages then some 0
      else s.user v := by
  obtain ⟨frames, hlen, htakes, hgives⟩ := mapAnonymous_gives h.inv h.fresh hva hm
  -- a page has a frame of the call, or that of before
  have hcases : ∀ v < 2 ^ 48,
      (va / PAGE_SIZE ≤ v / PAGE_SIZE ∧ v / PAGE_SIZE < va / PAGE_SIZE + pages) ∧
        s'.lookup v = frames[v / PAGE_SIZE - va / PAGE_SIZE]? ∨
      ¬(va / PAGE_SIZE ≤ v / PAGE_SIZE ∧ v / PAGE_SIZE < va / PAGE_SIZE + pages) ∧
        s'.lookup v = s.lookup v := by
    intro v hv
    have hcovers : (Call.anonymous va frames).covers (v / PAGE_SIZE) ↔
        va / PAGE_SIZE ≤ v / PAGE_SIZE ∧ v / PAGE_SIZE < va / PAGE_SIZE + pages := by
      rw [← hlen]
      exact Iff.rfl
    rw [hgives v hv, Call.apply]
    by_cases hin : (Call.anonymous va frames).covers (v / PAGE_SIZE)
    · rw [if_pos hin]
      exact .inl ⟨hcovers.mp hin, rfl⟩
    · rw [if_neg hin]
      exact .inr ⟨fun hout => hin (hcovers.mpr hout), rfl⟩
  have hapart : ∀ f ∈ frames, f ∉ s.anon := fun f hf hanon =>
    h.fresh.notOwned f (htakes.taken f hf) (h.inv.owned_of_anon hanon)
  refine ⟨⟨htakes.inv, htakes.fresh, fun v hv f hf => ?_, fun v hv w hw f hf hf' => ?_⟩, fun v hv => ?_⟩
  · rw [htakes.anon]
    rcases hcases v hv with ⟨-, hnew⟩ | ⟨-, hold⟩
    · rw [hnew] at hf
      exact List.mem_append_right _ (List.mem_of_getElem? hf)
    · rw [hold] at hf
      exact List.mem_append_left _ (h.anon v hv f hf)
  · rcases hcases v hv with ⟨hin, hnew⟩ | ⟨-, hold⟩
    · rw [hnew] at hf
      rcases hcases w hw with ⟨hin', hnew'⟩ | ⟨-, hold'⟩
      · rw [hnew'] at hf'
        have hlt : v / PAGE_SIZE - va / PAGE_SIZE < frames.length := by omega
        have hindex := (List.getElem?_inj hlt htakes.once).mp (hf.trans hf'.symm)
        omega
      · rw [hold'] at hf'
        exact absurd (h.anon w hw f hf') (hapart f (List.mem_of_getElem? hf))
    · rw [hold] at hf
      rcases hcases w hw with ⟨-, hnew'⟩ | ⟨-, hold'⟩
      · rw [hnew'] at hf'
        exact absurd (h.anon v hv f hf) (hapart f (List.mem_of_getElem? hf'))
      · rw [hold'] at hf'
        exact h.alone v hv w hw f hf hf'
  · have hoffset := Nat.mod_lt v PAGE_SIZE_pos
    rw [user, translate_eq]
    rcases hcases v hv with ⟨hin, hnew⟩ | ⟨hout, hold⟩
    · have hlt : v / PAGE_SIZE - va / PAGE_SIZE < frames.length := by omega
      have hf := hnew.trans (List.getElem?_eq_getElem hlt)
      have hzero := byteAt_zeroed (dvd_lookup hf) hoffset (htakes.zeroed _ (List.getElem_mem hlt))
      rw [if_pos hin, hf]
      exact congrArg some hzero
    · rw [if_neg hout, hold, user, translate_eq]
      cases hf : s.lookup v with
      | none => rfl
      | some f =>
        have hkept := byteAt_congr (dvd_lookup hf) hoffset (htakes.kept f (h.anon v hv f hf))
        exact congrArg some hkept

theorem private_create {mem : Words} {supply : List ℕ} (h : create mem supply = some s)
    (hf : Fresh s) : Private s ∧ ∀ v, s.user v = none := by
  obtain ⟨hinv, hleaf⟩ := create_spec h
  have hlookup : ∀ v, s.lookup v = none := fun v => by
    rw [lookup_eq, hleaf]
    rfl
  refine ⟨⟨hinv, hf, fun v _ f hf => ?_, fun v _ w _ f hf => ?_⟩, fun v => ?_⟩
  · rw [hlookup] at hf
    cases hf
  · rw [hlookup] at hf
    cases hf
  · rw [user, translate_eq, hlookup]
    rfl

end

end Paged

end JungeyOs.Mm
