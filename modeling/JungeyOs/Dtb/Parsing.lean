import JungeyOs.Dtb.Flattening
import JungeyOs.Dtb.Lookup

/-!
# Blobs that may be corrupt

What `next_event` and the loops over its events (`kernel/src/dtb.rs`, lines 136–303 and 342–384) read of a
blob of which nothing is known. `next_event` compares its tokens with the size of the structure block, and
nothing with `total_size`.

Results:
* `parses_iff_yields`: the walk stays in the blob exactly if the structure block parses within the blob.
* `scan_safe_iff`, `bodies_append`: a loop stays in the blob, by what its body reads at the last event.
* `Parses.init_in`: the values of all other events lie in the blob.
-/

namespace JungeyOs.Dtb

open Bytes Reads
open Jlfs (asBytes)

/-- The first `k` bytes of a value lie in the blob. -/
def Slice.Within (blob : List UInt8) (v : Slice) (k : ℕ) : Prop := k = 0 ∨ v.pos + k ≤ blob.length

/-! ## Tokens -/

/-- The number at `i` of the blob. -/
def wordAt (blob : List UInt8) (i : ℕ) : ℕ := (be32 i).value blob

/-- What stands behind a token that is before `i` lies in the blob: a name with its NUL, or the two words of a
property and its name. -/
def TokenFits (f : Fdt) (blob : List UInt8) (i token : ℕ) : Prop :=
  (token = FDT_BEGIN_NODE → 0 ∈ blob.drop i) ∧
    (token = FDT_PROP → i + 8 ≤ blob.length ∧ 0 ∈ blob.drop (f.stringsOff + wordAt blob (i + 4)))

/-- From a walker on, the structure block parses within the blob: the events, each with the walker behind
it. -/
inductive Parses (f : Fdt) (blob : List UInt8) : Walker → List (Event × Walker) → Prop
  | past {w : Walker} (hover : f.structSize < w.pos + 4) : Parses f blob w []
  | stop {w : Walker} (hroom : w.pos + 4 ≤ f.structSize) (hin : f.structOff + w.pos + 4 ≤ blob.length)
    (hstop : wordAt blob (f.structOff + w.pos) ∉ [FDT_NOP, FDT_BEGIN_NODE, FDT_END_NODE, FDT_PROP]) :
    Parses f blob w []
  | nop {w : Walker} {evs : List (Event × Walker)} (hroom : w.pos + 4 ≤ f.structSize)
    (hin : f.structOff + w.pos + 4 ≤ blob.length) (htoken : wordAt blob (f.structOff + w.pos) = FDT_NOP)
    (hrest : Parses f blob w.skip evs) : Parses f blob w evs
  | token {w w' : Walker} {token : ℕ} {ev : Event} {evs : List (Event × Walker)}
    (hroom : w.pos + 4 ≤ f.structSize) (hin : f.structOff + w.pos + 4 ≤ blob.length)
    (htoken : wordAt blob (f.structOff + w.pos) = token) (hnop : token ≠ FDT_NOP)
    (hfits : TokenFits f blob (f.structOff + w.pos + 4) token)
    (hev : (w.skip.event f token).value blob = (some ev, w')) (hrest : Parses f blob w' evs) :
    Parses f blob w ((ev, w') :: evs)

section

variable {blob : List UInt8} {n : ℕ} {f : Fdt} {w w' : Walker} {token : ℕ} {evs : List (Event × Walker)}

theorem strAt_safe_iff {off : ℕ} (hblob : blob.length < 2 ^ 64) :
    (f.strAt off).Safe blob n ↔ 0 ∈ blob.drop (f.stringsOff + off) := by
  rw [Fdt.strAt, safe_bind, cstr_safe_iff hblob]
  exact and_iff_left (safe_pure _)

/-- A token is read within the blob exactly if what stands behind it lies there. -/
theorem event_safe_iff (hblob : blob.length < 2 ^ 64) : (w.skip.event f token).Safe blob n ↔
    TokenFits f blob (f.structOff + w.pos + 4) token := by
  have hpos : f.structOff + w.skip.pos = f.structOff + w.pos + 4 := by
    rw [Walker.skip_pos]
    omega
  rw [Walker.event, TokenFits, hpos]
  split_ifs with hend hbegin hendNode hprop
  · rw [hend]
    exact iff_of_true (safe_pure _) ⟨fun h => absurd h (by decide), fun h => absurd h (by decide)⟩
  · rw [hbegin, safe_bind, cstr_safe_iff hblob]
    exact ⟨fun h => ⟨fun _ => h.1, fun hprop => absurd hprop (by decide)⟩, fun h => ⟨h.1 rfl, safe_pure _⟩⟩
  · rw [hendNode]
    exact iff_of_true (safe_pure _) ⟨fun h => absurd h (by decide), fun h => absurd h (by decide)⟩
  · rw [hprop, safe_bind, safe_bind, safe_bind, safe_be32, safe_be32, strAt_safe_iff hblob]
    constructor
    · rintro ⟨-, hhead, hname, -⟩
      exact ⟨fun h => absurd h (by decide), fun _ => ⟨by omega, hname⟩⟩
    · rintro ⟨-, h⟩
      obtain ⟨hhead, hname⟩ := h rfl
      exact ⟨by omega, by omega, hname, safe_pure _⟩
  · exact iff_of_true (safe_pure _) ⟨fun h => absurd h hbegin, fun h => absurd h hprop⟩

/-- A call of `next_event`, by the token in front. -/
theorem nextEvent_word (hroom : w.pos + 4 ≤ f.structSize) (hin : f.structOff + w.pos + 4 ≤ blob.length)
    (htoken : wordAt blob (f.structOff + w.pos) = token) :
    ((w.nextEvent f).Safe blob n ↔
      (if token = FDT_NOP then w.skip.nextEvent f else w.skip.event f token).Safe blob n) ∧
      (w.nextEvent f).value blob =
        (if token = FDT_NOP then w.skip.nextEvent f else w.skip.event f token).value blob := by
  rw [wordAt] at htoken
  rw [Walker.nextEvent_eq hroom, safe_bind, value_bind, htoken, safe_be32, and_iff_right hin]
  exact ⟨Iff.rfl, rfl⟩

/-- A token that is none of the others ends the walk. -/
theorem event_stop (h : token ∉ [FDT_NOP, FDT_BEGIN_NODE, FDT_END_NODE, FDT_PROP]) :
    w.event f token = pure (none, w) := by
  simp only [List.mem_cons, List.not_mem_nil, or_false, not_or] at h
  obtain ⟨-, hbegin, hendNode, hprop⟩ := h
  rw [Walker.event, if_neg hbegin, if_neg hendNode, if_neg hprop, ite_self]

theorem event_none (hnop : token ≠ FDT_NOP) (h : ((w.event f token).value blob).1 = none) :
    token ∉ [FDT_NOP, FDT_BEGIN_NODE, FDT_END_NODE, FDT_PROP] := by
  simp only [List.mem_cons, List.not_mem_nil, or_false, not_or]
  refine ⟨hnop, ?_, ?_, ?_⟩
  all_goals
    rintro rfl
    simp [Walker.event, FDT_END, FDT_BEGIN_NODE, FDT_END_NODE, FDT_PROP] at h

theorem Parses.yields (hblob : blob.length < 2 ^ 64) (h : Parses f blob w evs) : Yields f blob n w evs := by
  induction h with
  | past hover =>
    refine .done ?_ ?_
    · rw [Walker.nextEvent_end hover]
      exact safe_pure _
    · rw [Walker.nextEvent_end hover]
      rfl
  | stop hroom hin hstop =>
    obtain ⟨hsafe, hvalue⟩ := nextEvent_word (n := n) hroom hin rfl
    have hnop := fun h => hstop (List.mem_cons.mpr (Or.inl h))
    rw [if_neg hnop, event_stop hstop] at hsafe hvalue
    exact .done (hsafe.mpr (safe_pure _)) (by rw [hvalue]; rfl)
  | nop hroom hin htoken _ ih =>
    obtain ⟨hsafe, hvalue⟩ := nextEvent_word (n := n) hroom hin htoken
    exact ih.congr hsafe hvalue
  | token hroom hin htoken hnop hfits hev _ ih =>
    obtain ⟨hsafe, hvalue⟩ := nextEvent_word (n := n) hroom hin htoken
    rw [if_neg hnop] at hsafe hvalue
    exact .next (hsafe.mpr ((event_safe_iff hblob).mpr hfits)) (hvalue.trans hev) ih

theorem Yields.past (h : Yields f blob n w evs) (hover : f.structSize < w.pos + 4) : Parses f blob w evs := by
  cases h with
  | done => exact .past hover
  | next _ hvalue =>
    rw [Walker.nextEvent_end hover] at hvalue
    cases hvalue

/-- A walk in the blob parses. -/
theorem Yields.parses (hblob : blob.length < 2 ^ 64) (m : ℕ) : ∀ {w : Walker} {evs : List (Event × Walker)},
    f.structSize < w.pos + m → Yields f blob n w evs → Parses f blob w evs := by
  induction m with
  | zero => exact fun hm h => h.past (by omega)
  | succ m ih =>
    intro w evs hm h
    by_cases hroom : f.structSize < w.pos + 4
    · exact h.past hroom
    · have hroom : w.pos + 4 ≤ f.structSize := Nat.not_lt.mp hroom
      have hin : f.structOff + w.pos + 4 ≤ blob.length := by
        have hsafe : (w.nextEvent f).Safe blob n := by
          cases h with
          | done hsafe => exact hsafe
          | next hsafe => exact hsafe
        rw [Walker.nextEvent_eq hroom, safe_bind, safe_be32] at hsafe
        exact hsafe.1
      obtain ⟨hsafe, hvalue⟩ := nextEvent_word (n := n) hroom hin rfl
      by_cases hnop : wordAt blob (f.structOff + w.pos) = FDT_NOP
      · rw [if_pos hnop] at hsafe hvalue
        exact .nop hroom hin hnop (ih (by rw [Walker.skip_pos]; omega) (h.congr hsafe.symm hvalue.symm))
      · rw [if_neg hnop] at hsafe hvalue
        cases h with
        | done _ hnone =>
          rw [hvalue] at hnone
          exact .stop hroom hin (event_none hnop hnone)
        | @next _ w' ev evs hsafe' hvalue' hrest =>
          have htook : Walker.Took f w ((w.nextEvent f).value blob) := (Walker.nextEvent_took f w).value
          rw [hvalue'] at htook
          obtain ⟨-, hpos⟩ : w.pos + 4 ≤ f.structSize ∧ w.pos + 4 ≤ w'.pos := htook rfl
          exact .token hroom hin rfl hnop ((event_safe_iff hblob).mp (hsafe.mp hsafe'))
            (hvalue.symm.trans hvalue') (ih (by omega) hrest)

theorem parses_iff_yields (hblob : blob.length < 2 ^ 64) : Parses f blob w evs ↔ Yields f blob n w evs :=
  ⟨fun h => h.yields hblob, fun h => h.parses hblob (f.structSize + 1) (by omega)⟩

/-! ## Loops -/

section

variable {σ ρ : Type}

/-- The bodies of a loop read the blob only. -/
def Bodies (body : σ → Walker → Event → Reads UInt8 (σ ⊕ ρ)) (blob : List UInt8) (n : ℕ) :
    σ → List (Event × Walker) → Prop
  | _, [] => True
  | s, (ev, w) :: evs => (body s w ev).Safe blob n ∧
    ∀ s', (body s w ev).value blob = .inl s' → Bodies body blob n s' evs

/-- The variables of a loop behind events, unless it has returned. -/
def behind (body : σ → Walker → Event → Reads UInt8 (σ ⊕ ρ)) (blob : List UInt8) :
    σ → List (Event × Walker) → Option σ
  | s, [] => some s
  | s, (ev, w) :: evs =>
    match (body s w ev).value blob with
    | .inl s => behind body blob s evs
    | .inr _ => none

variable {body : σ → Walker → Event → Reads UInt8 (σ ⊕ ρ)} {result : σ → ρ}

/-- A loop over a walk that stays in the blob reads the blob only exactly if its bodies do. -/
theorem scan_safe_iff (h : Yields f blob n w evs) : ∀ {fuel : ℕ} {s : σ}, f.structSize ≤ w.pos + fuel →
    ((scan f body result fuel w s).Safe blob n ↔ Bodies body blob n s evs) := by
  induction h with
  | @done w hsafe hvalue =>
    intro fuel s _
    refine iff_of_true ?_ trivial
    cases fuel with
    | zero => exact safe_pure _
    | succ fuel =>
      rw [scan, safe_bind, and_iff_right hsafe]
      match hnext : (w.nextEvent f).value blob with
      | (none, w') => exact safe_pure _
      | (some ev, w') =>
        rw [hnext] at hvalue
        cases hvalue
  | @next w w' ev evs hsafe hvalue _ ih =>
    intro fuel s hfuel
    have htook : Walker.Took f w ((w.nextEvent f).value blob) := (Walker.nextEvent_took f w).value
    rw [hvalue] at htook
    obtain ⟨hsize, hpos⟩ : w.pos + 4 ≤ f.structSize ∧ w.pos + 4 ≤ w'.pos := htook rfl
    cases fuel with
    | zero => omega
    | succ fuel =>
      rw [scan, safe_bind, and_iff_right hsafe, hvalue, Bodies]
      dsimp only
      rw [safe_bind]
      refine and_congr_right fun _ => ?_
      cases hnext : (body s w' ev).value blob with
      | inl s' =>
        simp only [Sum.inl.injEq, forall_eq']
        exact ih (by omega)
      | inr r => simp

/-- If bodies keep an invariant and read the blob only wherever the event is one of `good`, all depends on the
last event. -/
theorem bodies_append (I : σ → Prop) (good : Event → Prop)
    (hgood : ∀ s w ev, I s → good ev → (body s w ev).Safe blob n ∧
      ∀ s', (body s w ev).value blob = .inl s' → I s') (last : Event × Walker) (init : List (Event × Walker)) :
    ∀ {s : σ}, I s → (∀ e ∈ init, good e.1) → ((Bodies body blob n s (init ++ [last]) ↔
      ∀ s', behind body blob s init = some s' → (body s' last.2 last.1).Safe blob n) ∧
        ∀ s', behind body blob s init = some s' → I s') := by
  induction init with
  | nil =>
    intro s hs _
    refine ⟨?_, fun s' hs' => Option.some.inj hs' ▸ hs⟩
    rw [List.nil_append, Bodies, behind]
    simp only [Option.some.injEq, forall_eq']
    exact and_iff_left fun _ _ => trivial
  | cons e init ih =>
    intro s hs hinit
    obtain ⟨he, hinit⟩ := List.forall_mem_cons.mp hinit
    obtain ⟨hsafe, hinv⟩ := hgood s e.2 e.1 hs he
    rw [List.cons_append, Bodies, and_iff_right hsafe, behind]
    cases hnext : (body s e.2 e.1).value blob with
    | inl s' =>
      simp only [Sum.inl.injEq, forall_eq']
      exact ih (hinv s' hnext) hinit
    | inr r => simp

theorem behind_congr {body' : σ → Walker → Event → Reads UInt8 (σ ⊕ ρ)}
    (h : ∀ s w ev s', (body s w ev).value blob = .inl s' → (body' s w ev).value blob = .inl s')
    (evs : List (Event × Walker)) : ∀ {s s' : σ}, behind body blob s evs = some s' →
      behind body' blob s evs = some s' := by
  induction evs with
  | nil => exact fun hs => hs
  | cons e evs ih =>
    intro s s' hs
    rw [behind] at hs ⊢
    cases hnext : (body s e.2 e.1).value blob with
    | inl s'' =>
      rw [hnext] at hs
      rw [h s e.2 e.1 s'' hnext]
      exact ih hs
    | inr r =>
      rw [hnext] at hs
      cases hs

/-- What the body keeps holds behind events, of the variables and of what else they make. -/
theorem behind_inv {τ : Type} {g : τ → Event → τ} (J : σ → τ → Prop)
    (hstep : ∀ s t w ev s', J s t → (body s w ev).value blob = .inl s' → J s' (g t ev))
    (init : List (Event × Walker)) : ∀ {s s' : σ} {t : τ}, J s t → behind body blob s init = some s' →
      J s' (init.foldl (fun t e => g t e.1) t) := by
  induction init with
  | nil => exact fun h hs => Option.some.inj hs ▸ h
  | cons e init ih =>
    intro s s' t h hs
    rw [behind] at hs
    cases hnext : (body s e.2 e.1).value blob with
    | inl s'' =>
      rw [hnext] at hs
      exact ih (hstep s t e.2 e.1 s'' h hnext) hs
    | inr r =>
      rw [hnext] at hs
      cases hs

/-- A loop whose body always goes on does not return before the end. -/
theorem behind_isSome (I : σ → Prop) (good : Event → Prop)
    (hgoes : ∀ s w ev, I s → good ev → ∃ s', (body s w ev).value blob = .inl s' ∧ I s')
    (init : List (Event × Walker)) : ∀ {s : σ}, I s → (∀ e ∈ init, good e.1) →
      ∃ s', behind body blob s init = some s' := by
  induction init with
  | nil => exact fun _ _ => ⟨_, rfl⟩
  | cons e init ih =>
    intro s hs hinit
    obtain ⟨he, hinit⟩ := List.forall_mem_cons.mp hinit
    obtain ⟨s', hnext, hs'⟩ := hgoes s e.2 e.1 hs he
    rw [behind, hnext]
    exact ih hs' hinit

end

/-! ## Values -/

/-- The names of the properties of the current node, those since the last `BeginNode`. -/
def Event.names (names : List String) : Event → List String
  | .beginNode _ _ => []
  | .endNode => names
  | .prop _ name _ => name :: names

/-- The value of the event lies in the blob. -/
def Event.In (blob : List UInt8) : Event → Prop
  | .prop _ _ value => value.Within blob value.len
  | _ => True

theorem Slice.Within.mono {v : Slice} {k m : ℕ} (h : v.Within blob m) (hk : k ≤ m) : v.Within blob k := by
  obtain rfl | h := h
  · exact Or.inl (Nat.le_zero.mp hk)
  · exact Or.inr (by omega)

theorem Slice.Within.holds {v : Slice} (h : v.Within blob v.len) : ∃ bytes, v.Holds blob bytes := by
  obtain h | h := h
  · exact ⟨[], List.nil_prefix, h⟩
  · refine ⟨(blob.drop v.pos).take v.len, List.take_prefix _ _, ?_⟩
    rw [List.length_take, List.length_drop]
    omega

theorem word_safe_iff {v : Slice} : (be32 v.pos).Safe blob n ↔ v.Within blob 4 := by
  rw [safe_be32, Slice.Within]
  omega

/-- An event takes up what its value does. -/
theorem event_in (token : ℕ) : (w.event f token).Returns fun r => ∀ depth name value,
    r.1 = some (.prop depth name value) → value.pos + value.len ≤ f.structOff + r.2.pos := by
  rw [Walker.event]
  split_ifs
  · exact returns_pure (by simp)
  · exact returns_bind _ fun _ => returns_pure (by simp)
  · exact returns_pure (by simp)
  · refine returns_bind _ fun len => returns_bind _ fun off => returns_bind _ fun name =>
      returns_pure fun depth name value h => ?_
    cases h
    have hle := align4_le len
    show f.structOff + w.pos + 8 + len ≤ f.structOff + (w.pos + 8 + align4 len)
    omega
  · exact returns_pure (by simp)

theorem Parses.token_in (h : Parses f blob w evs) (hne : evs ≠ []) :
    f.structOff + w.pos + 4 ≤ blob.length := by
  cases h with
  | past => exact absurd rfl hne
  | stop _ hin => exact hin
  | nop _ hin => exact hin
  | token _ hin => exact hin

/-- All values but that of the last event lie in the blob, as a token is read behind them. -/
theorem Parses.init_in (h : Parses f blob w evs) : ∀ {init : List (Event × Walker)} {last : Event × Walker},
    evs = init ++ [last] → ∀ e ∈ init, e.1.In blob := by
  induction h with
  | past => exact fun h => absurd h.symm (by simp)
  | stop => exact fun h => absurd h.symm (by simp)
  | nop _ _ _ _ ih => exact ih
  | @token w w' token ev evs hroom hin htoken hnop hfits hev hrest ih =>
    intro init last hevs
    cases init with
    | nil => exact nofun
    | cons e init =>
      rw [List.cons_append, List.cons.injEq] at hevs
      obtain ⟨rfl, rfl⟩ := hevs
      refine List.forall_mem_cons.mpr ⟨?_, ih rfl⟩
      have hbehind := hrest.token_in (by simp)
      cases ev with
      | beginNode => trivial
      | endNode => trivial
      | prop depth name value =>
        have hin : ∀ depth name value,
            ((w.skip.event f token).value blob).1 = some (.prop depth name value) →
              value.pos + value.len ≤ f.structOff + ((w.skip.event f token).value blob).2.pos :=
          (event_in token).value
        have hvalue := hin depth name value
        rw [hev] at hvalue
        have hvalue : value.pos + value.len ≤ f.structOff + w'.pos := hvalue rfl
        exact Or.inr (by omega)

/-! ## Lists of strings -/

theorem exists_long (m : ℕ) : ∃ c : String, m < (asBytes c).length := by
  induction m with
  | zero => exact ⟨"a", by decide⟩
  | succ m ih =>
    obtain ⟨c, hc⟩ := ih
    refine ⟨c.push 'a', ?_⟩
    rw [Jlfs.length_asBytes] at hc ⊢
    rw [String.utf8ByteSize_push]
    exact Nat.add_lt_add_right hc 1

/-- The search for a string that is longer than the blob goes through the whole list. -/
theorem matchesFrom_long {want : List UInt8} (hwant : blob.length < want.length) (left : ℕ) :
    ∀ {i : ℕ} {entry : List UInt8}, entry.length ≤ i → entry.length ≤ blob.length →
      ((matchesFrom want left i entry).Safe blob n ↔ left = 0 ∨ i + left ≤ blob.length) ∧
        (left = 0 ∨ i + left ≤ blob.length → (matchesFrom want left i entry).value blob = false) := by
  have hne {entry : List UInt8} (hentry : entry.length ≤ blob.length) : entry ≠ want := by
    rintro rfl
    omega
  induction left with
  | zero =>
    intro i entry _ hentry
    refine ⟨iff_of_true (safe_pure _) (Or.inl rfl), fun _ => ?_⟩
    rw [matchesFrom, value_pure]
    exact beq_eq_false_iff_ne.mpr (hne hentry)
  | succ left ih =>
    intro i entry hi hentry
    rw [matchesFrom, safe_bind, safe_byte, value_bind]
    by_cases hlt : i < blob.length
    · rw [and_iff_right hlt]
      by_cases hzero : (byte i : Reads UInt8 UInt8).value blob = 0
      · have hnil : ([] : List UInt8).length = 0 := rfl
        obtain ⟨hsafe, hvalue⟩ := ih (i := i + 1) (hnil.trans_le (Nat.zero_le _))
          (hnil.trans_le (Nat.zero_le _))
        rw [if_pos hzero, if_neg (hne hentry), hsafe]
        exact ⟨by omega, fun h => hvalue (by omega)⟩
      · have hlen : (entry ++ [(byte i : Reads UInt8 UInt8).value blob]).length = entry.length + 1 :=
          List.length_append
        obtain ⟨hsafe, hvalue⟩ := ih (i := i + 1) (hlen.trans_le (by omega)) (hlen.trans_le (by omega))
        rw [if_neg hzero, hsafe]
        exact ⟨by omega, fun h => hvalue (by omega)⟩
    · exact ⟨iff_of_false (fun h => hlt h.1) (by omega), fun h => absurd h (by omega)⟩

theorem compatMatches_long {c : String} (hc : blob.length < (asBytes c).length) (v : Slice) :
    ((compatMatches v c).Safe blob n ↔ v.Within blob v.len) ∧
      (v.Within blob v.len → (compatMatches v c).value blob = false) :=
  matchesFrom_long hc v.len (Nat.zero_le _) (Nat.zero_le _)

theorem compatMatches_safe {v : Slice} (h : v.Within blob v.len) (c : String) :
    (compatMatches v c).Safe blob n := by
  obtain ⟨bytes, hholds⟩ := h.holds
  exact (compatMatches_of_holds c hholds).1

/-! ## Pairs of a `reg` -/

/-- How many bytes the whole pairs of a `reg` have. -/
def whole (a z len : ℕ) : ℕ := len / ((a + z) * 4) * ((a + z) * 4)

theorem whole_le (a z len : ℕ) : whole a z len ≤ len := Nat.div_mul_le_self _ _

theorem cellsFrom_safe_iff (cells : ℕ) : ∀ {pos v : ℕ}, (cellsFrom cells pos v).Safe blob n ↔
    cells = 0 ∨ pos + cells * 4 ≤ blob.length := by
  induction cells with
  | zero => exact iff_of_true (safe_pure _) (Or.inl rfl)
  | succ cells ih =>
    intro pos v
    rw [cellsFrom, safe_bind, safe_be32, ih]
    omega

theorem readCells_safe_iff {v : Slice} {offset cells : ℕ} : (readCells v offset cells).Safe blob n ↔
    cells = 0 ∨ v.pos + offset + cells * 4 ≤ blob.length := cellsFrom_safe_iff cells

theorem pair_safe_iff {r : Slice} {offset a z : ℕ} :
    (readCells r offset a).Safe blob n ∧ (readCells r (offset + a * 4) z).Safe blob n ↔
      a + z = 0 ∨ r.pos + offset + (a + z) * 4 ≤ blob.length := by
  rw [readCells_safe_iff, readCells_safe_iff]
  omega

/-- The pairs of a `reg` from the one with number `m` on lie in the blob. -/
def PairsIn (blob : List UInt8) (r : Slice) (a z m : ℕ) : Prop :=
  ∀ j, m ≤ j → (j + 1) * ((a + z) * 4) ≤ r.len → r.pos + (j + 1) * ((a + z) * 4) ≤ blob.length

theorem pairsIn_succ {r : Slice} {a z m : ℕ} (h : (m + 1) * ((a + z) * 4) ≤ r.len) :
    PairsIn blob r a z m ↔ r.pos + (m + 1) * ((a + z) * 4) ≤ blob.length ∧ PairsIn blob r a z (m + 1) := by
  constructor
  · exact fun hall => ⟨hall m le_rfl h, fun j hj => hall j (by omega)⟩
  · rintro ⟨hm, hall⟩ j hj hlen
    obtain rfl | hlt := Nat.eq_or_lt_of_le hj
    · exact hm
    · exact hall j hlt hlen

theorem pairsIn_of_lt {r : Slice} {a z m : ℕ} (h : r.len < (m + 1) * ((a + z) * 4)) :
    PairsIn blob r a z m := by
  intro j hj hlen
  have hmul : (m + 1) * ((a + z) * 4) ≤ (j + 1) * ((a + z) * 4) := Nat.mul_le_mul_right _ (by omega)
  omega

theorem within_whole_iff {r : Slice} {a z : ℕ} (hstride : 0 < a + z) :
    r.Within blob (whole a z r.len) ↔ PairsIn blob r a z 0 := by
  rw [whole]
  have hpos : 0 < (a + z) * 4 := by omega
  constructor
  · rintro hwithin j - hlen
    have hdiv : j + 1 ≤ r.len / ((a + z) * 4) := (Nat.le_div_iff_mul_le hpos).mpr hlen
    have hmul := Nat.mul_le_mul_right ((a + z) * 4) hdiv
    have hpair : 0 < (j + 1) * ((a + z) * 4) := Nat.mul_pos (Nat.succ_pos j) hpos
    obtain hzero | hwithin := hwithin
    · omega
    · omega
  · intro hall
    cases hdiv : r.len / ((a + z) * 4) with
    | zero => exact Or.inl (Nat.zero_mul _)
    | succ j =>
      have hlen := Nat.div_mul_le_self r.len ((a + z) * 4)
      rw [hdiv] at hlen
      exact Or.inr (hall j (Nat.zero_le j) hlen)

end

end JungeyOs.Dtb
