import JungeyOs.Display.Messages

/-!
# Whose windows, whose taps

Windows are keyed by the sender that the kernel recorded. Input is not: any process that
may send to the display server may send `OP_INPUT` (`user/src/gpudrv.rs`, lines 649–658).

Results:
* `perform_others`: no command changes a window of another process.
* `perform_taps`: a tap is sent by `OP_INPUT` only.
* `contained_iff`: a message leaves other processes alone exactly when no command that the
  loop comes to is an `OP_INPUT` that is delivered.
-/

namespace JungeyOs.Display

open Reads

namespace Server

section

variable {env : Env} {sender : ℕ} {s : Server}

/-! ## What a command leaves alone -/

@[simp]
theorem present_wm (env : Env) (s : Server) (r : Rect) : (s.present env r).wm = s.wm := by
  simp only [present]
  split_ifs <;> rfl

@[simp]
theorem present_taps (env : Env) (s : Server) (r : Rect) : (s.present env r).taps = s.taps := by
  simp only [present]
  split_ifs <;> rfl

theorem compose_windows (env : Env) (s : Server) : (s.compose env).wm.windows = s.wm.windows := by
  simp only [compose]
  split_ifs
  · rfl
  · simp [Wm.paint]

theorem compose_taps (env : Env) (s : Server) : (s.compose env).taps = s.taps := by
  simp only [compose]
  split_ifs
  · rfl
  · simp

theorem routeTap_windows (env : Env) (s : Server) (x y : ℕ) :
    (s.routeTap env x y).wm.windows = s.wm.windows := by
  rw [routeTap]
  cases s.wm.hit x y with
  | none => rfl
  | some r =>
    obtain ⟨owner, id, rx, ry⟩ := r
    simp only
    cases s.slot owner with
    | none => rfl
    | some slot =>
      simp only
      split_ifs <;> rfl

/-- A window of another process is none that the operation names. -/
theorem change_others {m m' : Wm} {id : UInt8} (h : Wm.Change m m' sender id)
    {k : Fin MAX_WINDOWS} (hused : (m.windows k).used) (howner : (m.windows k).owner ≠ sender) :
    m'.windows k = m.windows k := by
  cases h with
  | nothing hwindows => rw [hwindows]
  | opened i w hfind hfree hwindows =>
    have hk : k ≠ i := by
      rintro rfl
      rw [hfree] at hused
      cases hused
    rw [hwindows, Function.update_of_ne hk]
  | changed i w hfind hwindows =>
    have hk : k ≠ i := by
      rintro rfl
      exact howner (Wm.find_eq_some hfind).2.1
    rw [hwindows, Function.update_of_ne hk]

/-- No command changes a window of another process. -/
theorem perform_others {r : Request} {k : Fin MAX_WINDOWS} (hused : (s.wm.windows k).used)
    (howner : (s.wm.windows k).owner ≠ sender) :
    (s.perform env sender r).wm.windows k = s.wm.windows k := by
  cases r with
  | clear bytes => rfl
  | draw bytes damage => rfl
  | present => exact congrFun (compose_windows env s) k
  | input x y down =>
    rw [perform]
    split_ifs
    · exact congrFun (routeTap_windows env s x y) k
    · rfl
  | create id r bg title => exact change_others (Wm.create_change _ _ _ _ _ _) hused howner
  | raise id => exact change_others (Wm.raise_change _ _ _) hused howner
  | move id x y => exact change_others (Wm.move_change _ _ _ _ _) hused howner
  | push id cmd => exact change_others (Wm.push_change _ _ _ _) hused howner
  | reset id => exact change_others (Wm.reset_change _ _ _) hused howner
  | client pids => rfl
  | stats => rfl
  | shutdown => rfl

/-! ## Taps -/

/-- A tap at the point lands on a window of a process that was introduced, and its channel
takes the event. -/
def Lands (env : Env) (s : Server) (x y : ℕ) : Prop :=
  ∃ owner id rx ry, s.wm.hit x y = some (owner, id, rx, ry) ∧ owner ∈ s.clients.val ∧
    env.accepts s.sends

theorem slot_isSome_iff {pid : ℕ} : (s.slot pid).isSome ↔ pid ∈ s.clients.val := by
  simp [slot]

/-- A tap is sent exactly when it lands. -/
theorem routeTap_taps (env : Env) (s : Server) (x y : ℕ) :
    ¬s.Lands env x y ∧ (s.routeTap env x y).taps = s.taps ∨
      s.Lands env x y ∧ ∃ tap, (s.routeTap env x y).taps = s.taps ++ [tap] := by
  rw [routeTap]
  cases hhit : s.wm.hit x y with
  | none =>
    left
    refine ⟨?_, rfl⟩
    rintro ⟨owner, id, rx, ry, h, -⟩
    rw [hhit] at h
    cases h
  | some r =>
    obtain ⟨owner, id, rx, ry⟩ := r
    have howner : ∀ o i x' y', s.wm.hit x y = some (o, i, x', y') → o = owner := by
      intro o i x' y' h
      rw [hhit] at h
      exact (congrArg Prod.fst (Option.some.inj h)).symm
    simp only
    cases hslot : s.slot owner with
    | none =>
      left
      refine ⟨?_, rfl⟩
      rintro ⟨o, i, x', y', h, hmem, -⟩
      rw [howner o i x' y' h, ← slot_isSome_iff, hslot] at hmem
      cases hmem
    | some slot =>
      have hmem : owner ∈ s.clients.val := slot_isSome_iff.mp (by rw [hslot]; rfl)
      simp only
      by_cases hacc : env.accepts s.sends
      · right
        rw [if_pos hacc]
        exact ⟨⟨owner, id, rx, ry, hhit, hmem, hacc⟩, _, rfl⟩
      · left
        rw [if_neg hacc]
        exact ⟨fun h => hacc h.choose_spec.choose_spec.choose_spec.choose_spec.2.2, rfl⟩

/-- The command is input that is delivered. -/
def Request.Taps (env : Env) (s : Server) : Request → Prop
  | .input x y down => down ∧ s.Lands env x y
  | _ => False

/-- A tap is sent by `OP_INPUT` only. -/
theorem perform_taps (env : Env) (sender : ℕ) (s : Server) (r : Request) :
    ¬Request.Taps env s r ∧ (s.perform env sender r).taps = s.taps ∨
      Request.Taps env s r ∧ ∃ tap, (s.perform env sender r).taps = s.taps ++ [tap] := by
  cases r with
  | input x y down =>
    cases down with
    | false => exact Or.inl ⟨fun h => Bool.false_ne_true h.1, rfl⟩
    | true => simpa [Request.Taps, perform] using routeTap_taps env s x y
  | present => exact Or.inl ⟨id, compose_taps env s⟩
  | _ => exact Or.inl ⟨id, rfl⟩

end

/-! ## Input on the wire -/

/-- The command at `i` of the buffer is `OP_INPUT`, its finger is down, and the tap lands. -/
def Delivers (env : Env) (s : Server) (buf : List UInt8) (i : ℕ) : Prop :=
  buf[i]? = some OP_INPUT ∧ (∃ down, buf[i + 5]? = some down ∧ down ≠ 0) ∧
    s.Lands env (be16 (buf.drop (i + 1))) (be16 (buf.drop (i + 3)))

section

variable {env : Env} {sender n : ℕ} {s s' : Server} {buf : List UInt8} {i j fuel : ℕ}

/-- Only `OP_INPUT` leads to the arm for input. -/
theorem arm_eq_input {op : UInt8} : arm sender op = some .input ↔ op = OP_INPUT := by
  constructor
  · exact arm_of
  · rintro rfl
    simp [arm, OP_INPUT, OP_CLEAR, OP_RECT, OP_TEXT, OP_PRESENT, OP_COMPOSE]

/-- What the arm for input reads. -/
theorem run_input (s : Server) (sender : ℕ) {i : ℕ} {down : UInt8} (h : buf[i + 5]? = some down) :
    ((s.parse sender i .input).run buf).2 =
      some (.input (be16 (buf.drop (i + 1))) (be16 (buf.drop (i + 3))) (down != 0), 6) := by
  obtain ⟨hlt, -⟩ := List.getElem?_eq_some_iff.mp h
  rw [parse, run_bind, run_be16At (by omega), Option.bind_some, run_bind, run_be16At (by omega),
    Option.bind_some, run_bind, run_byte, h, Option.bind_some, run_pure]

/-- The command at `i` taps exactly when it is delivered input. -/
theorem taps_iff_delivers {req : Request} {len : ℕ}
    (hrun : ((s.request sender i).run buf).2 = some (some (req, len))) :
    Request.Taps env s req ↔ s.Delivers env buf i := by
  obtain ⟨op, a, hop, ha, hof, hparse⟩ := request_eq_some hrun
  by_cases hinput : a = .input
  · subst hinput
    have hop' := arm_eq_input.mp ha
    subst hop'
    cases hdown : buf[i + 5]? with
    | none =>
      -- without its last byte the command is not decoded
      rw [parse, run_bind] at hparse
      obtain ⟨x, -, hparse⟩ := Option.bind_eq_some_iff.mp hparse
      rw [run_bind] at hparse
      obtain ⟨y, -, hparse⟩ := Option.bind_eq_some_iff.mp hparse
      rw [run_bind, run_byte, hdown] at hparse
      cases hparse
    | some down =>
      rw [run_input s sender hdown] at hparse
      obtain ⟨rfl, -⟩ := Prod.mk.injEq .. ▸ Option.some.inj hparse
      simp [Request.Taps, Delivers, hop, hdown]
  · have hnot : ¬Request.Taps env s req := by
      cases req with
      | input x y down => exact absurd hof hinput
      | _ => exact id
    refine iff_of_false hnot fun hd => hinput ?_
    have hop' : op = OP_INPUT := by
      rw [hd.1] at hop
      exact (Option.some.inj hop).symm
    rw [arm_eq_input.mpr hop'] at ha
    exact (Option.some.inj ha).symm

/-! ## Whole messages -/

/-- From one command to the next, no window of another process changes. -/
theorem leads_others {a b : Server × ℕ} (h : Leads env sender n buf a b) {k : Fin MAX_WINDOWS}
    (hused : (a.1.wm.windows k).used) (howner : (a.1.wm.windows k).owner ≠ sender) :
    b.1.wm.windows k = a.1.wm.windows k := by
  obtain ⟨req, len, -, -, hb, -⟩ := turn_eq_next.mp h.2
  rw [hb]
  exact perform_others hused howner

theorem comes_others {a b : Server × ℕ} (h : Relation.ReflTransGen (Leads env sender n buf) a b)
    {k : Fin MAX_WINDOWS} (hused : (a.1.wm.windows k).used)
    (howner : (a.1.wm.windows k).owner ≠ sender) : b.1.wm.windows k = a.1.wm.windows k := by
  induction h with
  | refl => rfl
  | tail _ hleads ih => rw [leads_others hleads (by rw [ih, hused]) (by rwa [ih]), ih]

/-- From one command to the next, a tap is sent exactly when the command is delivered
input. -/
theorem leads_taps {a b : Server × ℕ} (h : Leads env sender n buf a b) :
    ¬a.1.Delivers env buf a.2 ∧ b.1.taps = a.1.taps ∨
      a.1.Delivers env buf a.2 ∧ ∃ tap, b.1.taps = a.1.taps ++ [tap] := by
  obtain ⟨req, len, hrun, -, hb, -⟩ := turn_eq_next.mp h.2
  rw [hb, ← taps_iff_delivers hrun]
  exact perform_taps env sender a.1 req

theorem comes_taps {a b : Server × ℕ} (h : Relation.ReflTransGen (Leads env sender n buf) a b) :
    a.1.taps.length ≤ b.1.taps.length := by
  induction h with
  | refl => exact le_rfl
  | tail _ hleads ih =>
    rcases leads_taps hleads with ⟨-, htaps⟩ | ⟨-, tap, htaps⟩
    · rwa [htaps]
    · rw [htaps, List.length_append]
      omega

theorem comes_taps_eq {a b : Server × ℕ} (h : Relation.ReflTransGen (Leads env sender n buf) a b)
    (hnone : ∀ c : Server × ℕ, Relation.ReflTransGen (Leads env sender n buf) a c → c.2 < n →
      ¬c.1.Delivers env buf c.2) : b.1.taps = a.1.taps := by
  induction h with
  | refl => rfl
  | tail hcomes hleads ih =>
    rcases leads_taps hleads with ⟨-, htaps⟩ | ⟨hdelivers, -⟩
    · rw [htaps, ih]
    · exact absurd hdelivers (hnone _ hcomes hleads.1)

/-- Input that is delivered does not end the loop. -/
theorem leads_of_delivers (hi : i < n) (h : s.Delivers env buf i) :
    ∃ b, Leads env sender n buf (s, i) b := by
  obtain ⟨hop, ⟨down, hdown, -⟩, -⟩ := h
  refine ⟨(s.perform env sender (.input (be16 (buf.drop (i + 1))) (be16 (buf.drop (i + 3)))
    (down != 0)), i + 6), hi, ?_⟩
  have hrun : ((s.request sender i).run buf).2 = some (some (.input (be16 (buf.drop (i + 1)))
      (be16 (buf.drop (i + 3))) (down != 0), 6)) := by
    rw [request_of_parse hop (arm_eq_input.mpr rfl), run_input s sender hdown, Option.map_some]
  simp only [hrun]
  rfl

end

section

variable (env : Env) (sender : ℕ) (s : Server) (bytes : UpTo BUFFER UInt8)
  (old : Vector UInt8 BUFFER)

/-- The message changes no field of a window of another process, and no tap is sent. -/
structure Contained : Prop where
  windows : ∀ k, (s.wm.windows k).used → (s.wm.windows k).owner ≠ sender →
    (serve env sender s bytes old).2.server.wm.windows k = s.wm.windows k
  taps : (serve env sender s bytes old).2.server.taps = s.taps

theorem serve_comes :
    ∃ j, Relation.ReflTransGen (Leads env sender bytes.val.length (received old bytes)) (s, 0)
      ((serve env sender s bytes old).2.server, j) := by
  by_cases hpos : bytes.val.length = 0
  · rw [serve, if_pos hpos]
    exact ⟨0, .refl⟩
  · rw [serve, if_neg hpos]
    exact decode_comes (Nat.le_add_left _ _)

variable {env sender s bytes old}

/-- The server where the loop ends is reached from every command that the loop comes to. -/
theorem serve_comes_from {n : ℕ} {buf : List UInt8} {a b : Server × ℕ} {fuel : ℕ}
    (h : Relation.ReflTransGen (Leads env sender n buf) a b) (hfuel : n ≤ a.2 + fuel) :
    ∃ j, Relation.ReflTransGen (Leads env sender n buf) b
      ((decode env sender n buf (fuel + 1) a.1 a.2).2.1, j) := by
  induction h using Relation.ReflTransGen.head_induction_on generalizing fuel with
  | refl => exact decode_comes hfuel
  | head hleads _ ih =>
    have hadv := hleads.advances
    have ha := hleads.1
    obtain ⟨fuel, rfl⟩ : ∃ f, fuel = f + 1 := ⟨fuel - 1, by omega⟩
    rw [decode_of_leads hleads]
    exact ih (by omega)

/-- A message from any process changes no window of another process, and sends no tap
exactly when no command that the loop comes to is input that is delivered. -/
theorem contained_iff :
    Contained env sender s bytes old ↔
      ∀ s' i, Comes env sender bytes.val.length (received old bytes) s s' i →
        i < bytes.val.length → ¬s'.Delivers env (received old bytes) i := by
  constructor
  · intro h s' i hcomes hi hdelivers
    have hpos : ¬bytes.val.length = 0 := by omega
    have htaps := h.taps
    obtain ⟨b, hleads⟩ : ∃ b, Leads env sender bytes.val.length (received old bytes) (s', i) b :=
      leads_of_delivers hi hdelivers
    obtain ⟨j, hrest⟩ := serve_comes_from (hcomes.tail hleads) (Nat.le_add_left _ _)
    rw [serve, if_neg hpos] at htaps
    have hlater := comes_taps hrest
    have hbefore := comes_taps hcomes
    rcases leads_taps hleads with ⟨hnot, -⟩ | ⟨-, tap, htap⟩
    · exact hnot hdelivers
    · simp only [conclude] at htaps
      rw [htaps, htap, List.length_append] at hlater
      simp only [List.length_singleton] at hlater hbefore
      omega
  · intro h
    obtain ⟨j, hcomes⟩ := serve_comes env sender s bytes old
    constructor
    · intro k hused howner
      exact comes_others hcomes hused howner
    · exact comes_taps_eq hcomes fun c hc hlt => h c.1 c.2 hc hlt

/-- A window of process 8, which the kernel has introduced. -/
def watched : Server :=
  ((start responsive fun _ => 0).perform responsive KERNEL (.client [8])).perform responsive 8
    (.create 1 { x := 0, y := 0, w := 100, h := 100 } 0xff000000 [])

/-- Process 7 taps on the window of process 8. -/
theorem watched_tapped :
    ¬Contained responsive 7 watched (UpTo.take BUFFER [OP_INPUT, 0, 50, 0, 50, 1])
      (Vector.replicate BUFFER 0) := by
  intro h
  exact absurd h.taps (by decide)

end

end Server

end JungeyOs.Display
