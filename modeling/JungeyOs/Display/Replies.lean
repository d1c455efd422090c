import JungeyOs.Lib.Run
import Mathlib.Logic.Function.Basic

/-!
# Answers of the display server

A model of `kernel/src/display.rs`, lines 25–79: any number of `round_trip_reply` calls
and a display server that answers each request of the kernel once and in order
(`user/src/gpudrv.rs`, lines 742–756), as late as it likes. Messages carry the number of
the call that they belong to, which nobody reads.

The requests of the block driver have a tag, because an answer that comes after the
timeout stays in the channel (`kernel/src/blk.rs`, lines 15–24); these have none.

Results:
* `inv_step`: while every request is sent after the answers to all earlier ones were
  taken, at most one call is in the two channels.
* `replies_exact`: then a call returns the answer to its own request, and one request sent
  earlier is enough for a call to return another answer.
-/

namespace JungeyOs.Display.Replies

/-- `REPLY_TIMEOUT_TICKS` (line 28). -/
def REPLY_TIMEOUT_TICKS : ℕ := 600

/-- Where a call of `round_trip_reply` stands. -/
inductive Pc
  | notMade
  /-- in the loop that waits for the answer -/
  | waiting (deadline : ℕ)
  | returned (result : Option (List UInt8))
  deriving DecidableEq

/-- `answer` records what the server answered to each call. -/
structure Sys where
  attached : Bool
  requests : List (ℕ × List UInt8)
  replies : List (ℕ × List UInt8)
  calls : ℕ
  pc : ℕ → Pc
  answer : ℕ → Option (List UInt8)

/-- `accepted` is whether `ipc::send` finds the channel; `now` is what `time::ticks`
returns. -/
inductive Act
  | attach
  | send (ops : List UInt8) (now : ℕ) (accepted : Bool)
  | poll (k now : ℕ)
  | answer (bytes : List UInt8)

namespace Sys

def goto (s : Sys) (k : ℕ) (pc : Pc) : Sys := { s with pc := Function.update s.pc k pc }

/-- Call `k` returns the first reply in the channel (lines 66–68). -/
def receive (s : Sys) (k : ℕ) (m : ℕ × List UInt8) (rest : List (ℕ × List UInt8)) : Sys :=
  { s.goto k (.returned (some m.2)) with replies := rest }

/-- The server answers the first request that it has not answered. -/
def respond (s : Sys) (m : ℕ × List UInt8) (rest : List (ℕ × List UInt8)) (bytes : List UInt8) :
    Sys :=
  { s with
    requests := rest
    replies := s.replies ++ [(m.1, bytes)]
    answer := Function.update s.answer m.1 (some bytes) }

/-- The call sends its request (lines 55–62). -/
def Sends (s : Sys) (ops : List UInt8) (accepted : Bool) : Prop :=
  s.attached ∧ ops ≠ [] ∧ accepted

instance (s : Sys) (ops : List UInt8) (accepted : Bool) : Decidable (s.Sends ops accepted) :=
  inferInstanceAs (Decidable (_ ∧ _ ∧ _))

def step (s : Sys) : Act → Option Sys
  -- `attach` (lines 34–37)
  | .attach => some { s with attached := true }
  -- `round_trip_reply` up to its loop (lines 53–63)
  | .send ops now accepted =>
    some (if s.Sends ops accepted then
      { s.goto s.calls (.waiting (now + REPLY_TIMEOUT_TICKS)) with
        requests := s.requests ++ [(s.calls, ops)], calls := s.calls + 1 }
    else { s.goto s.calls (.returned none) with calls := s.calls + 1 })
  -- one round of the loop (lines 65–71)
  | .poll k now =>
    match s.pc k with
    | .waiting deadline =>
      match s.replies with
      | m :: rest => some (s.receive k m rest)
      | [] => some (if deadline < now then s.goto k (.returned none) else s)
    | _ => none
  | .answer bytes =>
    match s.requests with
    | m :: rest => some (s.respond m rest bytes)
    | [] => none

/-- At boot. -/
def init : Sys :=
  { attached := false, requests := [], replies := [], calls := 0, pc := fun _ => .notMade
    answer := fun _ => none }

/-- The calls whose answers nobody has taken. -/
def outstanding (s : Sys) : List ℕ := s.replies.map Prod.fst ++ s.requests.map Prod.fst

end Sys

/-- The reply that a call returns is the server's answer to its request. -/
def Matched (s : Sys) : Prop := ∀ k bytes, s.pc k = .returned (some bytes) → s.answer k = some bytes

/-- A request is sent only when the answer to every earlier request was taken. -/
def Clear (s : Sys) : Act → Prop
  | .send ops _ accepted => s.Sends ops accepted → s.outstanding = []
  | _ => True

/-! ## The invariant -/

structure Inv (s : Sys) : Prop where
  made : ∀ k, s.calls ≤ k → s.pc k = .notMade ∧ s.answer k = none
  few : s.outstanding.length ≤ 1
  sent : ∀ k ∈ s.outstanding, k < s.calls ∧ ∀ bytes, s.pc k ≠ .returned (some bytes)
  waiting : ∀ k deadline, s.pc k = .waiting deadline → k ∈ s.outstanding
  replies : ∀ m ∈ s.replies, s.answer m.1 = some m.2
  matched : Matched s

theorem inv_init : Inv Sys.init :=
  ⟨fun _ _ => ⟨rfl, rfl⟩, Nat.zero_le 1, nofun, nofun, nofun, nofun⟩

section

variable {s s' : Sys} {a : Act} {k : ℕ} {m : ℕ × List UInt8} {rest : List (ℕ × List UInt8)}

/-- A request in its channel is the only one outstanding. -/
theorem Inv.only_request (h : Inv s) (hm : s.requests = m :: rest) :
    s.replies = [] ∧ rest = [] := by
  have hfew := h.few
  rw [Sys.outstanding, hm, List.length_append, List.length_map, List.length_map,
    List.length_cons] at hfew
  exact ⟨List.length_eq_zero_iff.mp (by omega), List.length_eq_zero_iff.mp (by omega)⟩

/-- An answer in its channel is the only one outstanding. -/
theorem Inv.only_reply (h : Inv s) (hm : s.replies = m :: rest) :
    s.requests = [] ∧ rest = [] := by
  have hfew := h.few
  rw [Sys.outstanding, hm, List.length_append, List.length_map, List.length_map,
    List.length_cons] at hfew
  exact ⟨List.length_eq_zero_iff.mp (by omega), List.length_eq_zero_iff.mp (by omega)⟩

/-- A request that is sent while nothing is outstanding. -/
theorem Inv.send (h : Inv s) (hclear : s.outstanding = []) (ops : List UInt8) (deadline : ℕ) :
    Inv { s.goto s.calls (.waiting deadline) with
      requests := s.requests ++ [(s.calls, ops)], calls := s.calls + 1 } := by
  obtain ⟨hrep, hreq⟩ := List.append_eq_nil_iff.mp hclear
  rw [List.map_eq_nil_iff] at hrep hreq
  have hout : ∀ k d, s.pc k ≠ .waiting d := by
    intro k d hk
    have hmem := h.waiting k d hk
    rw [hclear] at hmem
    cases hmem
  refine ⟨?_, ?_, ?_, ?_, h.replies, ?_⟩
  · intro k hk
    have hk' : s.calls + 1 ≤ k := hk
    obtain ⟨hpc, hans⟩ := h.made k (by omega)
    refine ⟨?_, hans⟩
    show Function.update s.pc s.calls _ k = _
    rw [Function.update_of_ne (by omega), hpc]
  · show (s.replies.map Prod.fst ++ (s.requests ++ [(s.calls, ops)]).map Prod.fst).length ≤ 1
    rw [hrep, hreq]
    exact Nat.le_refl 1
  · intro k hk
    have hk' : k ∈ s.replies.map Prod.fst ++ (s.requests ++ [(s.calls, ops)]).map Prod.fst := hk
    rw [hrep, hreq] at hk'
    obtain rfl := List.mem_singleton.mp hk'
    refine ⟨Nat.lt_succ_self _, fun bytes hpc => ?_⟩
    have hpc' : Function.update s.pc s.calls _ s.calls = _ := hpc
    rw [Function.update_self] at hpc'
    cases hpc'
  · refine (Function.forall_update_iff s.pc fun k q => ∀ d, q = .waiting d →
      k ∈ s.replies.map Prod.fst ++ (s.requests ++ [(s.calls, ops)]).map Prod.fst).mpr ⟨?_, ?_⟩
    · exact fun d _ => by simp
    · exact fun k _ d hk => absurd hk (hout k d)
  · refine (Function.forall_update_iff s.pc fun k q => ∀ bytes, q = .returned (some bytes) →
      s.answer k = some bytes).mpr ⟨fun bytes hq => ?_, fun k _ => h.matched k⟩
    cases hq

/-- A call that returns nothing: it was not sent, or its answer did not come. -/
theorem Inv.giveUp (h : Inv s) {calls : ℕ} (hle : s.calls ≤ calls) (hk : k < calls) :
    Inv { s.goto k (.returned none) with calls := calls } := by
  refine ⟨?_, h.few, ?_, ?_, h.replies, ?_⟩
  · intro j hj
    have hj' : calls ≤ j := hj
    obtain ⟨hpc, hans⟩ := h.made j (by omega)
    refine ⟨?_, hans⟩
    show Function.update s.pc k _ j = _
    rw [Function.update_of_ne (by omega), hpc]
  · intro j hj
    obtain ⟨hlt, hret⟩ := h.sent j hj
    refine ⟨Nat.lt_of_lt_of_le hlt hle, ?_⟩
    refine (Function.forall_update_iff s.pc fun j q => (∀ bytes, s.pc j ≠ .returned (some bytes)) →
      ∀ bytes, q ≠ .returned (some bytes)).mpr ⟨fun _ bytes hq => ?_, fun _ _ h => h⟩ j hret
    cases hq
  · refine (Function.forall_update_iff s.pc fun j q => ∀ d, q = .waiting d →
      j ∈ s.outstanding).mpr ⟨fun d hq => ?_, fun j _ => h.waiting j⟩
    cases hq
  · refine (Function.forall_update_iff s.pc fun j q => ∀ bytes, q = .returned (some bytes) →
      s.answer j = some bytes).mpr ⟨fun bytes hq => ?_, fun j _ => h.matched j⟩
    cases hq

/-- A call returns the answer in the channel, which is its own. -/
theorem Inv.take (h : Inv s) {deadline : ℕ} (hk : s.pc k = .waiting deadline)
    (hm : s.replies = m :: rest) :
    Inv (s.receive k m rest) := by
  obtain ⟨hreq, rfl⟩ := h.only_reply hm
  have hout : s.outstanding = [m.1] := by
    rw [Sys.outstanding, hm, hreq]
    rfl
  have hwaits : ∀ j d, s.pc j = .waiting d → j = m.1 := by
    intro j d hj
    have hmem := h.waiting j d hj
    rw [hout] at hmem
    exact List.mem_singleton.mp hmem
  obtain rfl : k = m.1 := hwaits k deadline hk
  have hnone : (s.receive m.1 m []).outstanding = [] := by
    show [].map Prod.fst ++ s.requests.map Prod.fst = []
    rw [hreq]
    rfl
  refine ⟨?_, ?_, ?_, ?_, nofun, ?_⟩
  · refine (Function.forall_update_iff s.pc fun j q => s.calls ≤ j →
      q = .notMade ∧ s.answer j = none).mpr ⟨fun hle => ?_, fun j _ => h.made j⟩
    exact absurd ((h.made m.1 hle).1.symm.trans hk) nofun
  · rw [hnone]
    exact Nat.zero_le 1
  · rw [hnone]
    exact nofun
  · intro j d hj
    have hj' : Function.update s.pc m.1 _ j = .waiting d := hj
    by_cases hjm : j = m.1
    · rw [hjm, Function.update_self] at hj'
      cases hj'
    · rw [Function.update_of_ne hjm] at hj'
      exact absurd (hwaits j d hj') hjm
  · refine (Function.forall_update_iff s.pc fun j q => ∀ bytes, q = .returned (some bytes) →
      s.answer j = some bytes).mpr ⟨fun bytes hq => ?_, fun j _ => h.matched j⟩
    cases hq
    exact h.replies m (hm ▸ List.mem_cons_self)

/-- The server answers the request that is outstanding. -/
theorem Inv.answer (h : Inv s) (hm : s.requests = m :: rest) (bytes : List UInt8) :
    Inv (s.respond m rest bytes) := by
  obtain ⟨hrep, rfl⟩ := h.only_request hm
  have hout : s.outstanding = [m.1] := by
    rw [Sys.outstanding, hrep, hm]
    rfl
  obtain ⟨hlt, hret⟩ := h.sent m.1 (hout ▸ List.mem_singleton_self _)
  have hsame : (s.respond m [] bytes).outstanding = s.outstanding := by
    show (s.replies ++ [(m.1, bytes)]).map Prod.fst ++ [].map Prod.fst = _
    rw [hrep, hout]
    rfl
  refine ⟨?_, hsame ▸ h.few, hsame ▸ h.sent, hsame ▸ h.waiting, ?_, ?_⟩
  · intro j hj
    have hj' : s.calls ≤ j := hj
    obtain ⟨hpc, hans⟩ := h.made j hj'
    refine ⟨hpc, ?_⟩
    show Function.update s.answer m.1 _ j = none
    rw [Function.update_of_ne (by omega), hans]
  · intro x hx
    have hx' : x ∈ s.replies ++ [(m.1, bytes)] := hx
    rw [hrep] at hx'
    obtain rfl := List.mem_singleton.mp hx'
    exact Function.update_self ..
  · intro j b hj
    have hne : j ≠ m.1 := by
      rintro rfl
      exact hret b hj
    show Function.update s.answer m.1 _ j = some b
    rw [Function.update_of_ne hne]
    exact h.matched j b hj

/-- Every step that meets the condition keeps the invariant. -/
theorem inv_step (h : Inv s) (hclear : Clear s a) (hs : s.step a = some s') : Inv s' := by
  cases a with
  | attach =>
    cases hs
    exact ⟨h.made, h.few, h.sent, h.waiting, h.replies, h.matched⟩
  | send ops now accepted =>
    cases hs
    by_cases hsends : s.Sends ops accepted
    · rw [if_pos hsends]
      exact h.send (hclear hsends) ops _
    · rw [if_neg hsends]
      exact h.giveUp (Nat.le_succ _) (Nat.lt_succ_self _)
  | poll k now =>
    cases hk : s.pc k with
    | waiting deadline =>
      cases hm : s.replies with
      | cons m rest =>
        simp only [Sys.step, hk, hm, Option.some.injEq] at hs
        subst hs
        exact h.take hk hm
      | nil =>
        simp only [Sys.step, hk, hm, Option.some.injEq] at hs
        subst hs
        by_cases hlate : deadline < now
        · rw [if_pos hlate]
          exact h.giveUp (Nat.le_refl _) (h.sent k (h.waiting k deadline hk)).1
        · rw [if_neg hlate]
          exact h
    | _ =>
      simp only [Sys.step, hk] at hs
      cases hs
  | answer bytes =>
    cases hm : s.requests with
    | nil =>
      simp only [Sys.step, hm] at hs
      cases hs
    | cons m rest =>
      simp only [Sys.step, hm, Option.some.injEq] at hs
      subst hs
      exact h.answer hm bytes

/-! ## A request that is sent earlier -/

theorem step_poll {deadline now : ℕ} (hk : s.pc k = .waiting deadline)
    (hm : s.replies = m :: rest) : s.step (.poll k now) = some (s.receive k m rest) := by
  simp only [Sys.step, hk, hm]

theorem step_answer {bytes : List UInt8} (hm : s.requests = m :: rest) :
    s.step (.answer bytes) = some (s.respond m rest bytes) := by
  simp only [Sys.step, hm]

/-- The call takes the reply `m`, and the server answers its request with something else. -/
theorem mixed_up_from {deadline : ℕ} (now : ℕ) {ops : List UInt8} (hk : s.pc k = .waiting deadline)
    (hrep : s.replies = [m]) (hreq : s.requests = [(k, ops)]) :
    ∃ t, Run.exec Sys.step s [.poll k now, .answer (0 :: m.2)] = some t ∧ t.requests = [] ∧
      ¬Matched t := by
  have hreq' : (s.receive k m []).requests = [(k, ops)] := hreq
  refine ⟨(s.receive k m []).respond (k, ops) [] (0 :: m.2), ?_, rfl, fun hmatched => ?_⟩
  · rw [Run.exec, step_poll hk hrep, Option.bind_some, Run.exec, step_answer hreq',
      Option.bind_some]
    rfl
  · have hown := hmatched k m.2 (Function.update_self ..)
    have hans : ((s.receive k m []).respond (k, ops) [] (0 :: m.2)).answer k = some (0 :: m.2) :=
      Function.update_self ..
    rw [hans, Option.some.injEq] at hown
    exact absurd (congrArg List.length hown) (by simp)

/-- The new call takes the answer to an earlier request, whatever the server answers to the
new one. -/
theorem mixed_up (h : Inv s) {ops : List UInt8} {now : ℕ} {accepted : Bool}
    (hsends : s.Sends ops accepted) (hout : s.outstanding ≠ [])
    (hs : s.step (.send ops now accepted) = some s') :
    ∃ as t, Run.exec Sys.step s' as = some t ∧ t.requests = [] ∧ ¬Matched t := by
  rw [Sys.step, if_pos hsends, Option.some.injEq] at hs
  have hpc : s'.pc s.calls = .waiting (now + REPLY_TIMEOUT_TICKS) := by
    rw [← hs]
    exact Function.update_self ..
  have hreq : s'.requests = s.requests ++ [(s.calls, ops)] := by rw [← hs]
  have hrep : s'.replies = s.replies := by
    rw [← hs]
    rfl
  cases hm : s.replies with
  | cons m rest =>
    obtain ⟨hnil, rfl⟩ := h.only_reply hm
    obtain ⟨t, ht⟩ := mixed_up_from now hpc (hrep.trans hm) (by rw [hreq, hnil]; rfl)
    exact ⟨_, t, ht⟩
  | nil =>
    cases hreq' : s.requests with
    | nil => exact absurd (by rw [Sys.outstanding, hm, hreq']; rfl) hout
    | cons m rest =>
      obtain ⟨-, rfl⟩ := h.only_request hreq'
      -- the server answers the earlier request first
      have hfirst : s'.requests = m :: [(s.calls, ops)] := by rw [hreq, hreq']; rfl
      have hpc' : (s'.respond m [(s.calls, ops)] []).pc s.calls = _ := hpc
      have hrep' : (s'.respond m [(s.calls, ops)] []).replies = [(m.1, [])] := by
        show s'.replies ++ [(m.1, [])] = _
        rw [hrep, hm]
        rfl
      obtain ⟨t, hexec, ht⟩ := mixed_up_from now hpc' hrep' rfl
      refine ⟨.answer [] :: [.poll s.calls now, .answer [0]], t, ?_, ht⟩
      rw [Run.exec, step_answer hfirst]
      exact hexec

end

/-- In every run in which a request is sent only when the answers to all earlier requests were
taken, a call returns the server's answer to its own request. After a request that was sent
before that, the calls and the server can go on so that the server answers every request and
a call has returned the answer to another one. -/
theorem replies_exact {s : Sys} (hs : Run.Reachable Sys.step Clear (· = Sys.init) s) :
    Matched s ∧ ∀ a s', ¬Clear s a → s.step a = some s' →
      ∃ as t, Run.exec Sys.step s' as = some t ∧ t.requests = [] ∧ ¬Matched t := by
  have hinv : Inv s := by
    refine hs.invariant Inv ?_ fun s a s' h hclear hs => inv_step h hclear hs
    rintro s rfl
    exact inv_init
  refine ⟨hinv.matched, fun a s' hclear hstep => ?_⟩
  cases a with
  | send ops now accepted =>
    obtain ⟨hsends, hout⟩ := Classical.not_imp.mp hclear
    exact mixed_up hinv hsends hout hstep
  | _ => exact absurd trivial hclear

/-- Two calls, each answered in time. -/
def inTime : List Act :=
  [.attach, .send [0x31] 0 true, .answer [0, 1], .poll 0 20, .send [0x32] 30 true, .poll 1 40,
    .answer [0, 2], .poll 1 60]

theorem replies_exact_inTime :
    ∃ t, Run.exec Sys.step Sys.init inTime = some t ∧ t.pc 0 = .returned (some [0, 1]) ∧
      t.pc 1 = .returned (some [0, 2]) ∧ Matched t ∧ ∀ a s', ¬Clear t a → t.step a = some s' →
        ∃ as u, Run.exec Sys.step s' as = some u ∧ u.requests = [] ∧ ¬Matched u := by
  have hstart : Run.Reachable Sys.step Clear (· = Sys.init) Sys.init := .start rfl
  have hmeets : Run.Meets Sys.step Clear Sys.init inTime :=
    .cons rfl trivial <| .cons rfl (fun _ => rfl) <| .cons rfl trivial <| .cons rfl trivial <|
      .cons rfl (fun _ => rfl) <| .cons rfl trivial <| .cons rfl trivial <| .cons rfl trivial trivial
  exact ⟨_, rfl, rfl, rfl, replies_exact (hstart.exec hmeets rfl)⟩

/-- The answer to the first request comes at tick 601, after its call returned nothing; the
second call returns it, and the server's answer to the second request stays in the channel. -/
def lateAnswer : List Act :=
  [.attach, .send [0x31] 0 true, .poll 0 601, .answer [0, 1], .send [0x32] 602 true, .poll 1 602,
    .answer [0, 2]]

theorem lateAnswer_mixed_up :
    ∃ t, Run.exec Sys.step Sys.init lateAnswer = some t ∧ t.pc 0 = .returned none ∧
      t.pc 1 = .returned (some [0, 1]) ∧ t.answer 0 = some [0, 1] ∧ t.answer 1 = some [0, 2] ∧
      ¬Matched t := by
  refine ⟨_, rfl, rfl, rfl, rfl, rfl, fun h => ?_⟩
  have hown := h 1 [0, 1] rfl
  exact absurd hown (by decide)

end JungeyOs.Display.Replies
