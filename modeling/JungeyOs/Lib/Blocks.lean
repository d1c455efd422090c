import Mathlib.Algebra.Order.Ring.Nat
import Mathlib.Data.List.Basic
import Mathlib.Data.List.Pairwise
import Mathlib.Data.List.Perm.Basic
import Mathlib.Tactic.SplitIfs

/-!
# Lists of blocks

A block is a range of addresses, given by its start and its size. In a sorted list of blocks that
neither overlap nor touch, a block is put in its place and joined with the neighbours it touches.

Results:
* `covers_insert`: the addresses that are covered afterwards.
* `Apart.insert`: the blocks neither overlap nor touch afterwards.
* `insert_append`: only the blocks next to the new one change.
* `bytes_insert`: how many addresses the blocks have afterwards.
* `Lone.perm`: blocks that neither overlap nor touch are known by the addresses that they cover.
* `Apart.within_iff`: blocks that are covered by ranges lie in one range each exactly when none
  reaches from one range into the next.
-/

namespace JungeyOs.Blocks

/-- The address is in one of the blocks. -/
def Covers (l : List (ℕ × ℕ)) (x : ℕ) : Prop := ∃ b ∈ l, b.1 ≤ x ∧ x < b.1 + b.2

/-- Each block ends before the next one starts, and they do not touch. -/
def Apart (l : List (ℕ × ℕ)) : Prop := l.Pairwise fun b c => b.1 + b.2 < c.1

/-- Put a block in front, joined with the next one if they touch. -/
def join (b : ℕ × ℕ) : List (ℕ × ℕ) → List (ℕ × ℕ)
  | [] => [b]
  | c :: l => if b.1 + b.2 = c.1 then (b.1, b.2 + c.2) :: l else b :: c :: l

/-- Put a block in its place, joined with the blocks that it touches. -/
def insert (b : ℕ × ℕ) : List (ℕ × ℕ) → List (ℕ × ℕ)
  | [] => [b]
  | c :: l => if c.1 < b.1 then join c (insert b l) else join b (c :: l)

/-- How many addresses the blocks have. -/
def bytes (l : List (ℕ × ℕ)) : ℕ := (l.map Prod.snd).sum

/-- No two blocks overlap or touch, in whichever order they stand. -/
def Lone (l : List (ℕ × ℕ)) : Prop := l.Pairwise fun b c => b.1 + b.2 < c.1 ∨ c.1 + c.2 < b.1

section

variable {b c d : ℕ × ℕ} {l l' : List (ℕ × ℕ)} {x : ℕ}

theorem covers_cons : Covers (c :: l) x ↔ c.1 ≤ x ∧ x < c.1 + c.2 ∨ Covers l x := by
  unfold Covers
  rw [List.exists_mem_cons_iff]

theorem covers_append : Covers (l ++ l') x ↔ Covers l x ∨ Covers l' x := by
  induction l with
  | nil => simp [Covers]
  | cons c l ih => rw [List.cons_append, covers_cons, covers_cons, ih, or_assoc]

theorem covers_join : Covers (join b l) x ↔ b.1 ≤ x ∧ x < b.1 + b.2 ∨ Covers l x := by
  cases l with
  | nil => exact covers_cons
  | cons c l =>
    rw [join]
    split_ifs with htouch
    · rw [covers_cons, covers_cons, ← or_assoc]
      refine or_congr_left ?_
      dsimp only
      omega
    · exact covers_cons

/-- The joined block starts where the new one does. -/
theorem join_eq (b : ℕ × ℕ) (l : List (ℕ × ℕ)) :
    ∃ n rest, join b l = (b.1, n) :: rest ∧ rest.Sublist l := by
  cases l with
  | nil => exact ⟨b.2, [], rfl, .slnil⟩
  | cons c l =>
    rw [join]
    split_ifs
    · exact ⟨_, l, rfl, List.sublist_cons_self c l⟩
    · exact ⟨b.2, c :: l, rfl, .refl _⟩

theorem covers_insert : Covers (insert b l) x ↔ b.1 ≤ x ∧ x < b.1 + b.2 ∨ Covers l x := by
  induction l with
  | nil => exact covers_cons
  | cons c l ih =>
    rw [insert]
    split_ifs
    · rw [covers_join, ih, covers_cons]
      exact or_left_comm
    · exact covers_join

/-- The addresses of a block are in no other one. -/
theorem Apart.not_covers (h : Apart (l ++ c :: l')) (hx : c.1 ≤ x) (hx' : x < c.1 + c.2) :
    ¬Covers (l ++ l') x := by
  rintro ⟨d, hd, hdx, hdx'⟩
  obtain ⟨-, hback, hboth⟩ := List.pairwise_append.mp h
  rcases List.mem_append.mp hd with hd | hd
  · have := hboth d hd c List.mem_cons_self
    omega
  · have := (List.pairwise_cons.mp hback).1 d hd
    omega

/-- Every block starts where one of the old ones did, and is as big as one of them. -/
theorem mem_join (hd : d ∈ join b l) :
    ∃ c, (c = b ∨ c ∈ l) ∧ d.1 = c.1 ∧ c.2 ≤ d.2 := by
  cases l with
  | nil =>
    obtain rfl := List.mem_singleton.mp hd
    exact ⟨d, .inl rfl, rfl, Nat.le_refl _⟩
  | cons c l =>
    rw [join] at hd
    split_ifs at hd
    · rcases List.mem_cons.mp hd with rfl | hd
      · exact ⟨b, .inl rfl, rfl, Nat.le_add_right ..⟩
      · exact ⟨d, .inr (.tail _ hd), rfl, Nat.le_refl _⟩
    · exact ⟨d, List.mem_cons.mp hd, rfl, Nat.le_refl _⟩

theorem mem_insert (hd : d ∈ insert b l) :
    ∃ c, (c = b ∨ c ∈ l) ∧ d.1 = c.1 ∧ c.2 ≤ d.2 := by
  induction l generalizing d with
  | nil => exact mem_join (l := []) hd
  | cons c l ih =>
    rw [insert] at hd
    split_ifs at hd
    · obtain ⟨e, he, hstart, hsize⟩ := mem_join hd
      rcases he with rfl | he
      · exact ⟨e, .inr List.mem_cons_self, hstart, hsize⟩
      · obtain ⟨f, hf, hstart', hsize'⟩ := ih he
        exact ⟨f, hf.imp_right (.tail _), hstart.trans hstart', Nat.le_trans hsize' hsize⟩
    · exact mem_join hd

theorem Apart.join (h : Apart l) (hb : ∀ c ∈ l, b.1 + b.2 ≤ c.1) : Apart (join b l) := by
  cases l with
  | nil => exact List.pairwise_singleton _ _
  | cons c l =>
    obtain ⟨hc, hl⟩ := List.pairwise_cons.mp h
    rw [Blocks.join]
    split_ifs with htouch
    · refine List.pairwise_cons.mpr ⟨fun d hd => ?_, hl⟩
      have := hc d hd
      dsimp only
      omega
    · have hfirst := hb c List.mem_cons_self
      refine List.pairwise_cons.mpr ⟨fun d hd => ?_, h⟩
      rcases List.mem_cons.mp hd with rfl | hd
      · omega
      · have := hc d hd
        omega

/-- Ranges without a common address lie one behind the other. -/
theorem behind_of_disjoint (hb : 0 < b.2) (hc : 0 < c.2)
    (h : ∀ x, b.1 ≤ x → x < b.1 + b.2 → ¬(c.1 ≤ x ∧ x < c.1 + c.2)) :
    b.1 + b.2 ≤ c.1 ∨ c.1 + c.2 ≤ b.1 := by
  have hfirst := h b.1
  have hsecond := h c.1
  omega

theorem Apart.insert (h : Apart l) (hpos : ∀ c ∈ l, 0 < c.2) (hb : 0 < b.2)
    (hfree : ∀ x, b.1 ≤ x → x < b.1 + b.2 → ¬Covers l x) : Apart (insert b l) := by
  induction l with
  | nil => exact List.pairwise_singleton _ _
  | cons c l ih =>
    obtain ⟨hc, hl⟩ := List.pairwise_cons.mp h
    have hpos' := fun d hd => hpos d (.tail _ hd)
    have hbehind := behind_of_disjoint hb (hpos c List.mem_cons_self) fun x hx hx' hcx =>
      hfree x hx hx' (covers_cons.mpr (.inl hcx))
    rw [Blocks.insert]
    split_ifs with hlt
    · refine (ih hl hpos' fun x hx hx' hcov => hfree x hx hx' (covers_cons.mpr (.inr hcov))).join
        fun d hd => ?_
      obtain ⟨e, rfl | he, hstart, -⟩ := mem_insert hd
      · omega
      · have := hc e he
        omega
    · refine h.join fun d hd => ?_
      have := hpos c List.mem_cons_self
      rcases List.mem_cons.mp hd with rfl | hd
      · omega
      · have := hc d hd
        omega

/-- Blocks that do not touch the next one stay as they are. -/
theorem insert_cons (hlt : c.1 < b.1) (hnext : ∀ d ∈ insert b l, c.1 + c.2 ≠ d.1) :
    insert b (c :: l) = c :: insert b l := by
  rw [insert, if_pos hlt]
  cases hi : insert b l with
  | nil => rfl
  | cons d rest =>
    rw [hi] at hnext
    exact if_neg (hnext d List.mem_cons_self)

/-- Where the new block comes behind `c` and in front of `l'`, only `c` and the first block of `l'`
can be joined with it. -/
theorem insert_append (h : Apart (l ++ c :: l')) (hc : c.1 < b.1) (hl' : ∀ d ∈ l'.head?, ¬d.1 < b.1) :
    insert b (l ++ c :: l') = l ++ join c (join b l') := by
  induction l with
  | nil =>
    have hrest : insert b l' = join b l' := by
      cases l' with
      | nil => rfl
      | cons d l' => exact if_neg (hl' d rfl)
    rw [List.nil_append, insert, if_pos hc, hrest, List.nil_append]
  | cons e l ih =>
    obtain ⟨he, hrest⟩ := List.pairwise_cons.mp h
    have hec := he c (List.mem_append_right _ List.mem_cons_self)
    rw [List.cons_append, insert_cons (by omega), List.cons_append, ih hrest]
    intro d hd htouch
    obtain ⟨f, rfl | hf, hstart, -⟩ := mem_insert hd
    · omega
    · have := he f hf
      omega

/-- In front of all blocks, the new block can be joined with the first one. -/
theorem insert_front (hl : ∀ d ∈ l.head?, ¬d.1 < b.1) : insert b l = join b l := by
  cases l with
  | nil => rfl
  | cons d l => exact if_neg (hl d rfl)

/-! ## How much the blocks have -/

theorem bytes_cons : bytes (b :: l) = b.2 + bytes l := rfl

theorem bytes_append : bytes (l ++ l') = bytes l + bytes l' := by
  unfold bytes
  rw [List.map_append, List.sum_append]

theorem bytes_join : bytes (join b l) = b.2 + bytes l := by
  cases l with
  | nil => rfl
  | cons c l =>
    rw [join]
    split_ifs
    · show b.2 + c.2 + bytes l = _
      rw [bytes_cons]
      omega
    · rfl

theorem bytes_insert : bytes (insert b l) = b.2 + bytes l := by
  induction l with
  | nil => rfl
  | cons c l ih =>
    rw [insert]
    split_ifs
    · rw [bytes_join, ih, bytes_cons]
      omega
    · exact bytes_join

/-! ## Blocks and the addresses that they cover -/

theorem Apart.lone (h : Apart l) : Lone l := h.imp .inl

/-- The addresses next to a block are in no block. -/
theorem Lone.edges (h : Lone l) (hb : b ∈ l) :
    (∀ x, x + 1 = b.1 → ¬Covers l x) ∧ ¬Covers l (b.1 + b.2) := by
  have hsymm : Std.Symm fun b c : ℕ × ℕ => b.1 + b.2 < c.1 ∨ c.1 + c.2 < b.1 :=
    ⟨fun _ _ h => h.symm⟩
  have hother : ∀ e ∈ l, e ≠ b → e.1 + e.2 < b.1 ∨ b.1 + b.2 < e.1 := fun e he hne =>
    List.Pairwise.forall h he hb hne
  refine ⟨fun x hx hcov => ?_, fun hcov => ?_⟩ <;> obtain ⟨e, he, hfrom, hto⟩ := hcov <;>
    by_cases heb : e = b
  · subst heb
    omega
  · have := hother e he heb
    omega
  · subst heb
    omega
  · have := hother e he heb
    omega

theorem Lone.mem_of_covers (h : Lone l) (h' : Lone l') (hpos : ∀ c ∈ l, 0 < c.2)
    (hcov : ∀ x, Covers l x ↔ Covers l' x) (hb : b ∈ l) : b ∈ l' := by
  have hbpos := hpos b hb
  obtain ⟨hbefore, hafter⟩ := h.edges hb
  obtain ⟨c, hc, hfrom, hto⟩ := (hcov b.1).mp ⟨b, hb, Nat.le_refl _, by omega⟩
  have hstart : c.1 = b.1 := by
    by_contra hne
    exact hbefore (b.1 - 1) (by omega) ((hcov _).mpr ⟨c, hc, by omega, by omega⟩)
  have hend : c.2 = b.2 := by
    rcases Nat.lt_trichotomy c.2 b.2 with hlt | heq | hlt
    · exact absurd ((hcov _).mp ⟨b, hb, by omega, by omega⟩) (h'.edges hc).2
    · exact heq
    · exact absurd ((hcov _).mpr ⟨c, hc, by omega, by omega⟩) hafter
  exact Prod.ext hstart hend ▸ hc

theorem Lone.nodup (h : Lone l) (hpos : ∀ c ∈ l, 0 < c.2) : l.Nodup := by
  refine h.imp_of_mem fun {c d} hc _ hcd => ?_
  rintro rfl
  have := hpos c hc
  omega

/-- Blocks that neither overlap nor touch are known by the addresses that they cover. -/
theorem Lone.perm (h : Lone l) (h' : Lone l') (hpos : ∀ c ∈ l, 0 < c.2) (hpos' : ∀ c ∈ l', 0 < c.2)
    (hcov : ∀ x, Covers l x ↔ Covers l' x) : l.Perm l' :=
  (List.perm_ext_iff_of_nodup (h.nodup hpos) (h'.nodup hpos')).mpr fun _ =>
    ⟨fun hb => h.mem_of_covers h' hpos hcov hb,
      fun hb => h'.mem_of_covers h hpos' (fun x => (hcov x).symm) hb⟩

/-! ## Blocks and ranges -/

/-- The block lies in one of the ranges, each of which is given by its first address and the one
behind its last. -/
def Within (ranges : List (ℕ × ℕ)) (b : ℕ × ℕ) : Prop :=
  ∃ r ∈ ranges, r.1 ≤ b.1 ∧ b.1 + b.2 ≤ r.2

/-- Where one of the ranges ends and another begins, the addresses on both sides are covered. -/
def Bridged (ranges l : List (ℕ × ℕ)) : Prop :=
  ∃ r ∈ ranges, ∃ q ∈ ranges, r.2 = q.1 ∧ Covers l (r.2 - 1) ∧ Covers l r.2

variable {ranges : List (ℕ × ℕ)} {q r : ℕ × ℕ}

/-- Ranges that lie one behind the other have no common address. -/
theorem range_unique (h : ranges.Pairwise fun q r => q.2 ≤ r.1) (hq : q ∈ ranges) (hr : r ∈ ranges)
    (hxq : q.1 ≤ x ∧ x < q.2) (hxr : r.1 ≤ x ∧ x < r.2) : q = r := by
  by_contra hne
  have hsymm : Std.Symm fun q r : ℕ × ℕ => q.2 ≤ r.1 ∨ r.2 ≤ q.1 := ⟨fun _ _ h => h.symm⟩
  have := List.Pairwise.forall (h.imp fun {a b} (hab : a.2 ≤ b.1) => Or.inl (b := b.2 ≤ a.1) hab) hq hr hne
  omega

/-- An address and the next one are in the same block. -/
theorem Apart.covers_succ (h : Apart l) (hx : Covers l x) (hx' : Covers l (x + 1)) :
    ∃ b ∈ l, b.1 ≤ x ∧ x + 1 < b.1 + b.2 := by
  obtain ⟨b, hb, hfrom, hto⟩ := hx
  by_contra hnone
  have hend : x + 1 = b.1 + b.2 := by
    by_contra hne
    exact hnone ⟨b, hb, hfrom, by omega⟩
  exact (h.lone.edges hb).2 (hend ▸ hx')

/-- Blocks that are covered by ranges lie in one range each exactly when none reaches from one range
into the next. -/
theorem Apart.within_iff (h : Apart l) (hpos : ∀ b ∈ l, 0 < b.2)
    (hranges : ranges.Pairwise fun q r => q.2 ≤ r.1) (hproper : ∀ r ∈ ranges, r.1 < r.2)
    (hcov : ∀ x, Covers l x → ∃ r ∈ ranges, r.1 ≤ x ∧ x < r.2) :
    (∀ b ∈ l, Within ranges b) ↔ ¬Bridged ranges l := by
  constructor
  · rintro hwithin ⟨r, hr, q, hq, htouch, hbelow, habove⟩
    have hrpos := hproper r hr
    have hnext : r.2 - 1 + 1 = r.2 := by omega
    obtain ⟨b, hb, hfrom, hto⟩ := h.covers_succ hbelow (hnext.symm ▸ habove)
    obtain ⟨t, ht, htb, hbt⟩ := hwithin b hb
    obtain rfl := range_unique hranges hr ht (x := r.2 - 1) (by omega) (by omega)
    omega
  · intro hbridge b hb
    have hbpos := hpos b hb
    obtain ⟨r, hr, hfrom, hto⟩ := hcov b.1 ⟨b, hb, le_rfl, by omega⟩
    refine ⟨r, hr, hfrom, Nat.not_lt.mp fun hlt => hbridge ?_⟩
    -- the end of the range is in the block, and so in a range that begins there
    have hbelow : Covers l (r.2 - 1) := ⟨b, hb, by omega, by omega⟩
    have habove : Covers l r.2 := ⟨b, hb, by omega, hlt⟩
    obtain ⟨q, hq, hqfrom, hqto⟩ := hcov r.2 habove
    refine ⟨r, hr, q, hq, ?_, hbelow, habove⟩
    by_contra hne
    obtain rfl := range_unique hranges hr hq (x := r.2 - 1) (by omega) (by omega)
    omega

end

end JungeyOs.Blocks
