import JungeyOs.Lib.Bytes
import JungeyOs.Lib.Run
import Mathlib.Data.List.Nodup
import Mathlib.Logic.Function.Basic
import Mathlib.Tactic.SplitIfs

/-!
# Requests to the block driver

Models of `kernel/src/blk.rs`, lines 54–150: any number of `round_trip` calls and the
driver process (`user/src/blkdrv.rs`, lines 320–376) as a system. A call draws its tag
before it takes `IN_FLIGHT`; the driver takes requests in order and answers each of them
once or not at all, as late as it likes. Messages carry the number of the call that
they belong to, which nobody reads.

Results:
* `replyTag_reply`: a reply carries the tag of its request.
* `inv_step`: every step keeps the queues, the tags and the lock in order (`Inv`).
* `replies_matched`: a call returns its own reply only, and every other reply is
  dropped once.
-/

namespace JungeyOs.RoundTrip

open JungeyOs.Bytes

/-! ## Messages (lines 91–107) -/

/-- `REPLY_TIMEOUT_TICKS` (line 34). -/
def REPLY_TIMEOUT_TICKS : ℕ := 800

/-- `REPLY_HEADER` (line 37). -/
def REPLY_HEADER : ℕ := 5

/-- `header` (lines 92–98). -/
def header (op : UInt8) (tag : UInt32) (sector : UInt64) : List UInt8 :=
  op :: (leList 4 tag.toNat ++ leList 8 sector.toNat)

/-- `reply_tag` (lines 100–105). -/
def replyTag (bytes : List UInt8) : UInt32 :=
  if bytes.length < REPLY_HEADER then 0 else UInt32.ofNat (ofLE ((bytes.drop 1).take 4))

/-- A reply of the driver: `[status:1][tag:4][data...]`, with the tag of the request. -/
def reply (status : UInt8) (request data : List UInt8) : List UInt8 :=
  status :: ((request.drop 1).take 4 ++ data)

/-- A reply carries the tag of its request. -/
theorem replyTag_reply (status op : UInt8) (tag : UInt32) (sector : UInt64)
    (payload data : List UInt8) :
    replyTag (reply status (header op tag sector ++ payload) data) = tag := by
  have htag : ((header op tag sector ++ payload).drop 1).take 4 = leList 4 tag.toNat := by
    simp only [header, List.cons_append, List.append_assoc, List.drop_succ_cons, List.drop_zero]
    rw [List.take_append_of_le_length (by simp), List.take_of_length_le (by simp)]
  have hlen : ¬(reply status (header op tag sector ++ payload) data).length < REPLY_HEADER := by
    rw [reply, htag]
    simp [REPLY_HEADER]
  rw [replyTag, if_neg hlen, reply, htag, List.drop_succ_cons, List.drop_zero,
    List.take_append_of_le_length (by simp), List.take_of_length_le (by simp),
    ofLE_leList 4 _ tag.toNat_lt, UInt32.ofNat_toNat]

/-! ## The system -/

/-- Where a call stands. -/
inductive Pc
  | notMade
  /-- has its tag, and waits for `IN_FLIGHT` -/
  | drawn (tag : UInt32) (msg : List UInt8)
  /-- has `IN_FLIGHT`, and has not sent its request -/
  | holding (tag : UInt32) (msg : List UInt8)
  /-- in the loop that waits for the reply -/
  | waiting (tag : UInt32) (deadline : ℕ)
  | returned (result : Except String (List UInt8))

/-- `sent`, `consumed`, `taken`, `dropped` and `answer` record what happened: the calls in
the order of their requests, the calls whose replies left the channel, which call returned
which reply, the replies dropped, and what the driver answered to each call. -/
structure Sys where
  attached : Bool
  nextTag : UInt32
  inFlight : Bool
  requests : List (ℕ × List UInt8)
  busy : Option (ℕ × List UInt8)
  replies : List (ℕ × List UInt8)
  requestCount : ℕ
  stale : ℕ
  calls : ℕ
  pc : ℕ → Pc
  sent : List ℕ
  consumed : List ℕ
  taken : List (ℕ × ℕ)
  dropped : List ℕ
  answer : ℕ → Option (List UInt8)

inductive Act
  | attach
  | draw (op : UInt8) (sector : UInt64) (payload : List UInt8)
  | acquire (k : ℕ)
  | send (k now : ℕ)
  | poll (k now : ℕ)
  | driverRecv
  | driverAnswer (status : UInt8) (data : List UInt8)
  | driverSkip

namespace Sys

def goto (s : Sys) (k : ℕ) (pc : Pc) : Sys := { s with pc := Function.update s.pc k pc }

/-- The call returns, and lets go of `IN_FLIGHT`. -/
def finish (s : Sys) (k : ℕ) (result : Except String (List UInt8)) : Sys :=
  { s with pc := Function.update s.pc k (.returned result), inFlight := false }

/-- The first reply leaves the channel and comes to call `k` (lines 128–139). -/
def receive (s : Sys) (k : ℕ) (tag : UInt32) (m : ℕ × List UInt8) (rest : List (ℕ × List UInt8)) :
    Sys :=
  let s := { s with replies := rest, consumed := s.consumed ++ [m.1] }
  if replyTag m.2 ≠ tag then { s with stale := s.stale + 1, dropped := m.1 :: s.dropped }
  else
    let s := { s with taken := (k, m.1) :: s.taken }
    if m.2.head? = some 0 then s.finish k (.ok m.2)
    else s.finish k (.error "driver reported an error")

def step (s : Sys) : Act → Option Sys
  -- `attach` (lines 47–50)
  | .attach => some { s with attached := true }
  -- `next_tag` (lines 151–153) and `header`
  | .draw op sector payload =>
    some { s.goto s.calls (.drawn s.nextTag (header op s.nextTag sector ++ payload)) with
      nextTag := s.nextTag + 1, calls := s.calls + 1 }
  -- `Outstanding::acquire` (lines 71–80)
  | .acquire k =>
    match s.pc k with
    | .drawn tag msg =>
      if s.inFlight then none else some { s.goto k (.holding tag msg) with inFlight := true }
    | _ => none
  -- `round_trip` up to its loop (lines 114–125)
  | .send k now =>
    match s.pc k with
    | .holding tag msg =>
      if s.attached then
        some { s.goto k (.waiting tag (now + REPLY_TIMEOUT_TICKS)) with
          requests := s.requests ++ [(k, msg)], requestCount := s.requestCount + 1
          sent := s.sent ++ [k] }
      else some (s.finish k (.error "no block driver attached"))
    | _ => none
  -- one round of the loop (lines 126–148)
  | .poll k now =>
    match s.pc k with
    | .waiting tag deadline =>
      match s.replies with
      | m :: rest => some (s.receive k tag m rest)
      | [] =>
        some (if deadline < now then s.finish k (.error "block driver did not answer") else s)
    | _ => none
  -- the driver
  | .driverRecv =>
    match s.busy, s.requests with
    | none, m :: rest => some { s with busy := some m, requests := rest }
    | _, _ => none
  | .driverAnswer status data => s.busy.map fun m =>
    { s with
      busy := none
      replies := s.replies ++ [(m.1, reply status m.2 data)]
      answer := Function.update s.answer m.1 (some (reply status m.2 data)) }
  | .driverSkip => s.busy.map fun _ => { s with busy := none }

/-- At boot; `NEXT_TAG` starts at 1 (line 43). -/
def init : Sys :=
  { attached := false, nextTag := 1, inFlight := false, requests := [], busy := none, replies := []
    requestCount := 0, stale := 0, calls := 0, pc := fun _ => .notMade, sent := [], consumed := []
    taken := [], dropped := [], answer := fun _ => none }

end Sys

/-! ## The invariant -/

/-- The tag that call `k` draws. -/
def tagOf (k : ℕ) : UInt32 := UInt32.ofNat (k + 1)

/-- Fewer than `2 ^ 32` calls have different tags. -/
theorem tagOf_inj {j k : ℕ} (hj : j + 1 < 2 ^ 32) (hk : k + 1 < 2 ^ 32) (h : tagOf j = tagOf k) :
    j = k := by
  have hnat := congrArg UInt32.toNat h
  unfold tagOf at hnat
  rw [UInt32.toNat_ofNat', UInt32.toNat_ofNat', Nat.mod_eq_of_lt hj, Nat.mod_eq_of_lt hk] at hnat
  omega

/-- The call has `IN_FLIGHT`. -/
def Pc.Active : Pc → Prop
  | .holding _ _ => True
  | .waiting _ _ => True
  | _ => False

/-- The call has its tag, and no other. -/
def Pc.Tagged (k : ℕ) : Pc → Prop
  | .drawn tag msg => tag = tagOf k ∧ ∃ op sector payload, msg = header op tag sector ++ payload
  | .holding tag msg => tag = tagOf k ∧ ∃ op sector payload, msg = header op tag sector ++ payload
  | .waiting tag _ => tag = tagOf k
  | _ => True

/-- The request of the call has been sent. -/
def Pc.Sent : Pc → Prop
  | .waiting _ _ => True
  | .returned _ => True
  | _ => False

/-- The call gave up on its reply. -/
def Pc.TimedOut (pc : Pc) : Prop := pc = .returned (.error "block driver did not answer")

/-- The calls whose messages are on their way, from the replies that left the channel to
the requests that the driver has not seen. -/
def Sys.pipeline (s : Sys) : List ℕ :=
  s.consumed ++ (s.replies.map Prod.fst ++ (s.busy.toList.map Prod.fst ++ s.requests.map Prod.fst))

structure Inv (s : Sys) : Prop where
  nextTag : s.nextTag = tagOf s.calls
  made : ∀ k, s.calls ≤ k → s.pc k = .notMade
  tagged : ∀ k, (s.pc k).Tagged k
  lock : ∀ k, (s.pc k).Active → s.inFlight = true ∧ ∀ j, (s.pc j).Active → j = k
  requests : ∀ m ∈ s.busy.toList ++ s.requests,
    ∃ op sector payload, m.2 = header op (tagOf m.1) sector ++ payload
  replies : ∀ m ∈ s.replies, replyTag m.2 = tagOf m.1 ∧ s.answer m.1 = some m.2
  order : s.pipeline.Sublist s.sent
  once : s.sent.Nodup
  sent : ∀ k ∈ s.sent, (s.pc k).Sent
  consumed : ∀ k ∈ s.consumed, k ∈ s.dropped ∨ (k, k) ∈ s.taken
  dropped : ∀ k ∈ s.dropped, k ∈ s.consumed ∧ (s.pc k).TimedOut
  droppedOnce : s.dropped.Nodup
  stale : s.stale = s.dropped.length
  taken : ∀ p ∈ s.taken, p.2 = p.1 ∧ p.1 ∈ s.consumed ∧
    ((∃ bytes, s.pc p.1 = .returned (.ok bytes)) ∨
      s.pc p.1 = .returned (.error "driver reported an error"))
  returned : ∀ k r, s.pc k = .returned r → k ∉ s.sent ∨ (s.pc k).TimedOut ∨ (k, k) ∈ s.taken
  matched : ∀ k bytes, s.pc k = .returned (.ok bytes) →
    (k, k) ∈ s.taken ∧ s.answer k = some bytes
  answered : ∀ k bytes, s.answer k = some bytes → k ∈ s.consumed ∨ (k, bytes) ∈ s.replies

theorem inv_init : Inv Sys.init := by
  refine ⟨rfl, fun _ _ => rfl, fun _ => trivial, nofun, nofun, nofun, List.Sublist.refl _, List.nodup_nil,
    nofun, nofun, nofun, List.nodup_nil, rfl, nofun, nofun, nofun, nofun⟩

section

variable {s s' : Sys} {a : Act} {k now : ℕ}

theorem forall_update {P : ℕ → Pc → Prop} {pc : ℕ → Pc} {p : Pc} (hk : P k p)
    (h : ∀ j, j ≠ k → P j (pc j)) : ∀ j, P j (Function.update pc k p j) := by
  intro j
  by_cases hj : j = k
  · subst hj
    rwa [Function.update_self]
  · rw [Function.update_of_ne hj]
    exact h j hj

theorem Inv.pipeline_nodup (h : Inv s) : s.pipeline.Nodup := h.order.nodup h.once

/-- Whoever has the lock is the only one. -/
theorem Inv.not_active (h : Inv s) (hk : (s.pc k).Active) {j : ℕ} (hj : j ≠ k) :
    ¬(s.pc j).Active := fun ha => hj ((h.lock k hk).2 j ha)

/-- A call that has not returned has no reply, and none of its replies was dropped. -/
theorem Inv.ne_of_dropped (h : Inv s) (hk : ∀ r, s.pc k ≠ .returned r) {j : ℕ}
    (hj : j ∈ s.dropped) : j ≠ k := by
  rintro rfl
  exact hk _ (h.dropped j hj).2

theorem Inv.ne_of_taken (h : Inv s) (hk : ∀ r, s.pc k ≠ .returned r) {p : ℕ × ℕ}
    (hp : p ∈ s.taken) : p.1 ≠ k := by
  rintro rfl
  obtain ⟨-, -, ⟨bytes, hret⟩ | hret⟩ := h.taken p hp
  · exact hk _ hret
  · exact hk _ hret

/-- The place of a call that has not returned changes, and the lock with it. -/
theorem Inv.goto (h : Inv s) {p : Pc} (inFlight : Bool) (hk : ∀ r, s.pc k ≠ .returned r)
    (hmade : s.pc k ≠ .notMade) (htag : p.Tagged k) (hsent : (s.pc k).Sent → p.Sent)
    (hok : ∀ r, p = .returned r → (∀ bytes, r ≠ .ok bytes) ∧ (k ∉ s.sent ∨ p.TimedOut))
    (hactive : p.Active → inFlight = true ∧ ∀ j, j ≠ k → ¬(s.pc j).Active)
    (hothers : ∀ j, j ≠ k → (s.pc j).Active → inFlight = true ∧ ¬p.Active) :
    Inv { s with pc := Function.update s.pc k p, inFlight := inFlight } := by
  refine ⟨h.nextTag, ?_, ?_, ?_, h.requests, h.replies, h.order, h.once, ?_, h.consumed, ?_,
    h.droppedOnce, h.stale, ?_, ?_, ?_, h.answered⟩
  · refine forall_update (P := fun j q => s.calls ≤ j → q = .notMade) (fun hle => ?_) fun j _ => h.made j
    exact absurd (h.made k hle) hmade
  · exact forall_update (P := fun j q => q.Tagged j) htag fun j _ => h.tagged j
  · intro i hi
    dsimp only at hi ⊢
    by_cases hik : i = k
    · subst hik
      rw [Function.update_self] at hi
      obtain ⟨hflight, hnone⟩ := hactive hi
      refine ⟨hflight, fun j hj => ?_⟩
      by_contra hji
      rw [Function.update_of_ne hji] at hj
      exact hnone j hji hj
    · rw [Function.update_of_ne hik] at hi
      obtain ⟨hflight, hnot⟩ := hothers i hik hi
      refine ⟨hflight, forall_update (P := fun j q => q.Active → j = i) (fun hp => absurd hp hnot) ?_⟩
      exact fun j _ hj => (h.lock i hi).2 j hj
  · exact fun j hj => forall_update (P := fun j q => j ∈ s.sent → q.Sent) (fun hj => hsent (h.sent k hj))
      (fun j _ hj => h.sent j hj) j hj
  · intro j hj
    dsimp only
    rw [Function.update_of_ne (h.ne_of_dropped hk hj)]
    exact h.dropped j hj
  · intro q hq
    dsimp only
    rw [Function.update_of_ne (h.ne_of_taken hk hq)]
    exact h.taken q hq
  · refine forall_update (P := fun j q => ∀ r, q = .returned r →
      j ∉ s.sent ∨ q.TimedOut ∨ (j, j) ∈ s.taken) (fun r hp => ?_) fun j _ => h.returned j
    rcases (hok r hp).2 with hnot | hout
    · exact .inl hnot
    · exact .inr (.inl hout)
  · exact forall_update (P := fun j q => ∀ bytes, q = .returned (.ok bytes) →
      (j, j) ∈ s.taken ∧ s.answer j = some bytes)
      (fun bytes hp => absurd rfl ((hok _ hp).1 bytes)) fun j _ => h.matched j

/-- `draw`. -/
theorem Inv.draw (h : Inv s) (op : UInt8) (sector : UInt64) (payload : List UInt8) :
    Inv { s.goto s.calls (.drawn s.nextTag (header op s.nextTag sector ++ payload)) with
      nextTag := s.nextTag + 1, calls := s.calls + 1 } := by
  have hnew : s.pc s.calls = .notMade := h.made _ le_rfl
  have hk : ∀ r, s.pc s.calls ≠ .returned r := fun r hr => by rw [hnew] at hr; cases hr
  refine ⟨?_, ?_, ?_, ?_, h.requests, h.replies, h.order, h.once, ?_, h.consumed, ?_, h.droppedOnce,
    h.stale, ?_, ?_, ?_, h.answered⟩
  · dsimp only
    rw [h.nextTag, tagOf, tagOf, ← UInt32.ofNat_one, ← UInt32.ofNat_add]
  · refine forall_update (P := fun j q => s.calls + 1 ≤ j → q = .notMade) (fun hle => by omega) ?_
    exact fun j _ hle => h.made j (by omega)
  · refine forall_update (P := fun j q => q.Tagged j) ⟨h.nextTag, op, sector, payload, ?_⟩
      fun j _ => h.tagged j
    rw [h.nextTag]
  · refine forall_update (P := fun i q => q.Active → s.inFlight = true ∧ ∀ j,
      ((Function.update s.pc s.calls _) j).Active → j = i) False.elim fun i _ hi => ?_
    refine ⟨(h.lock i hi).1, forall_update (P := fun j q => q.Active → j = i) False.elim ?_⟩
    exact fun j _ hj => (h.lock i hi).2 j hj
  · intro j hj
    refine forall_update (P := fun j q => j ∈ s.sent → q.Sent) (fun hj => ?_) (fun j _ hj => h.sent j hj) j hj
    have := h.sent _ hj
    rw [hnew] at this
    exact this.elim
  · intro j hj
    dsimp only [Sys.goto]
    rw [Function.update_of_ne (h.ne_of_dropped hk hj)]
    exact h.dropped j hj
  · intro q hq
    dsimp only [Sys.goto]
    rw [Function.update_of_ne (h.ne_of_taken hk hq)]
    exact h.taken q hq
  · exact forall_update (P := fun j q => ∀ r, q = .returned r →
      j ∉ s.sent ∨ q.TimedOut ∨ (j, j) ∈ s.taken) (fun _ hp => by cases hp) fun j _ => h.returned j
  · exact forall_update (P := fun j q => ∀ bytes, q = .returned (.ok bytes) →
      (j, j) ∈ s.taken ∧ s.answer j = some bytes) (fun _ hp => by cases hp) fun j _ => h.matched j

/-! ## The queues -/

/-- A request of a call that has sent none so far. -/
theorem Inv.enqueue (h : Inv s) {msg : List UInt8} (hsent : (s.pc k).Sent) (hnot : k ∉ s.sent)
    (hmsg : ∃ op sector payload, msg = header op (tagOf k) sector ++ payload)
    (hret : ∀ r, s.pc k ≠ .returned r) :
    Inv { s with requests := s.requests ++ [(k, msg)], requestCount := s.requestCount + 1,
                 sent := s.sent ++ [k] } := by
  refine ⟨h.nextTag, h.made, h.tagged, h.lock, fun m hm => ?_, h.replies, ?_, ?_, fun j hj => ?_,
    h.consumed, h.dropped, h.droppedOnce, h.stale, h.taken, fun j r hj => ?_, h.matched, h.answered⟩
  · rw [← List.append_assoc, List.mem_append, List.mem_singleton] at hm
    rcases hm with hm | rfl
    · exact h.requests m hm
    · exact hmsg
  · have hline := h.order.append (List.Sublist.refl [k])
    simpa only [Sys.pipeline, List.map_append, List.append_assoc, List.map_cons, List.map_nil] using hline
  · exact List.nodup_append.mpr ⟨h.once, List.nodup_singleton k, fun a ha b hb => by
      rw [List.mem_singleton.mp hb]
      rintro rfl
      exact hnot ha⟩
  · rcases List.mem_append.mp hj with hj | hj
    · exact h.sent j hj
    · rw [List.mem_singleton.mp hj]
      exact hsent
  · rcases h.returned j r hj with hs | hrest
    · refine .inl fun hmem => ?_
      rcases List.mem_append.mp hmem with hmem | hmem
      · exact hs hmem
      · rw [List.mem_singleton.mp hmem] at hj
        exact hret r hj
    · exact .inr hrest

/-- The driver takes a request, or drops the one it has. -/
theorem Inv.driver (h : Inv s) {busy : Option (ℕ × List UInt8)} {requests : List (ℕ × List UInt8)}
    (hsub : (busy.toList ++ requests).Sublist (s.busy.toList ++ s.requests)) :
    Inv { s with busy := busy, requests := requests } := by
  refine ⟨h.nextTag, h.made, h.tagged, h.lock, fun m hm => h.requests m (hsub.subset hm), h.replies,
    ?_, h.once, h.sent, h.consumed, h.dropped, h.droppedOnce, h.stale, h.taken, h.returned, h.matched,
    h.answered⟩
  refine List.Sublist.trans ?_ h.order
  refine (List.Sublist.refl _).append ((List.Sublist.refl _).append ?_)
  rw [← List.map_append, ← List.map_append]
  exact hsub.map Prod.fst

/-- The driver answers the request that it has. -/
theorem Inv.answer (h : Inv s) {m : ℕ × List UInt8} (hm : s.busy = some m) (status : UInt8)
    (data : List UInt8) : Inv { s with
      busy := none
      replies := s.replies ++ [(m.1, reply status m.2 data)]
      answer := Function.update s.answer m.1 (some (reply status m.2 data)) } := by
  have hbusy : m ∈ s.busy.toList ++ s.requests := by simp [hm]
  obtain ⟨op, sector, payload, hmsg⟩ := h.requests m hbusy
  -- the request has not been answered before
  have hfresh : ∀ j bytes, s.answer j = some bytes → j ≠ m.1 := by
    rintro j bytes hj rfl
    have hnodup := h.pipeline_nodup
    rw [Sys.pipeline, hm, ← List.append_assoc] at hnodup
    have hdisj := (List.nodup_append.mp hnodup).2.2
    refine hdisj m.1 ?_ m.1 (by simp) rfl
    rcases h.answered _ bytes hj with hc | hr
    · exact List.mem_append_left _ hc
    · exact List.mem_append_right _ (List.mem_map.mpr ⟨_, hr, rfl⟩)
  have hold : ∀ j bytes, s.answer j = some bytes →
      Function.update s.answer m.1 (some (reply status m.2 data)) j = some bytes :=
    fun j bytes hj => (Function.update_of_ne (hfresh j bytes hj) _ _).trans hj
  refine ⟨h.nextTag, h.made, h.tagged, h.lock, fun x hx => h.requests x (List.mem_append_right _ hx),
    fun x hx => ?_, ?_, h.once, h.sent, h.consumed, h.dropped, h.droppedOnce, h.stale, h.taken,
    h.returned, fun j bytes hj => ⟨(h.matched j bytes hj).1, hold j bytes (h.matched j bytes hj).2⟩,
    fun j bytes hj => ?_⟩
  · rcases List.mem_append.mp hx with hx | hx
    · exact ⟨(h.replies x hx).1, hold _ _ (h.replies x hx).2⟩
    · rw [List.mem_singleton.mp hx]
      exact ⟨by rw [hmsg, replyTag_reply], Function.update_self _ _ _⟩
  · have horder := h.order
    rw [Sys.pipeline, hm] at horder
    simpa [Sys.pipeline] using horder
  · dsimp only at hj ⊢
    by_cases hjm : j = m.1
    · subst hjm
      rw [Function.update_self] at hj
      cases hj
      exact .inr (List.mem_append_right _ List.mem_cons_self)
    · rw [Function.update_of_ne hjm] at hj
      exact (h.answered j bytes hj).imp_right fun hr => List.mem_append_left _ hr

/-! ## Taking a reply -/

/-- The reply at the head of the channel has not been taken before, and its request was
sent. -/
theorem Inv.head (h : Inv s) {m : ℕ × List UInt8} {rest : List (ℕ × List UInt8)}
    (hm : s.replies = m :: rest) : m.1 ∉ s.consumed ∧ m.1 ∈ s.sent := by
  have hnodup := h.pipeline_nodup
  have horder := h.order
  rw [Sys.pipeline, hm] at hnodup horder
  refine ⟨fun hc => ?_, horder.subset (by simp)⟩
  exact (List.nodup_append.mp hnodup).2.2 m.1 hc m.1 (by simp) rfl

theorem Inv.pipeline_take {m : ℕ × List UInt8} {rest : List (ℕ × List UInt8)}
    (hm : s.replies = m :: rest) :
    s.consumed ++ [m.1] ++ (rest.map Prod.fst ++ (s.busy.toList.map Prod.fst ++
      s.requests.map Prod.fst)) = s.pipeline := by
  rw [Sys.pipeline, hm]
  simp

/-- The reply of another call is dropped; that call timed out. -/
theorem Inv.drop (h : Inv s) {tag : UInt32} {deadline : ℕ} (hk : s.pc k = .waiting tag deadline)
    {m : ℕ × List UInt8} {rest : List (ℕ × List UInt8)} (hm : s.replies = m :: rest)
    (hne : replyTag m.2 ≠ tag) :
    Inv { s with replies := rest, consumed := s.consumed ++ [m.1], stale := s.stale + 1,
                 dropped := m.1 :: s.dropped } := by
  obtain ⟨hnew, hsent⟩ := h.head hm
  have hmem : m ∈ s.replies := hm ▸ List.mem_cons_self
  have htag : tag = tagOf k := by
    have := h.tagged k
    rwa [hk] at this
  have hmk : m.1 ≠ k := by
    rintro rfl
    exact hne ((h.replies m hmem).1.trans htag.symm)
  have hout : (s.pc m.1).TimedOut := by
    have hpast := h.sent m.1 hsent
    cases hpc : s.pc m.1 with
    | waiting tag' deadline' =>
      refine absurd ?_ (h.not_active (by rw [hk]; trivial) hmk)
      rw [hpc]
      trivial
    | returned r =>
      rcases h.returned m.1 r hpc with hns | hto | htaken
      · exact absurd hsent hns
      · rwa [hpc] at hto
      · exact absurd (h.taken _ htaken).2.1 hnew
    | _ => rw [hpc] at hpast; exact hpast.elim
  refine ⟨h.nextTag, h.made, h.tagged, h.lock, h.requests,
    fun x hx => h.replies x (hm ▸ List.mem_cons_of_mem _ hx), ?_, h.once, h.sent, fun j hj => ?_,
    fun j hj => ?_, ?_, by simp [h.stale], fun p hp => ?_, h.returned, h.matched, fun j bytes hj => ?_⟩
  · rw [Sys.pipeline, Inv.pipeline_take hm]
    exact h.order
  · rcases List.mem_append.mp hj with hj | hj
    · exact (h.consumed j hj).imp_left fun hd => List.mem_cons_of_mem _ hd
    · rw [List.mem_singleton.mp hj]
      exact .inl List.mem_cons_self
  · rcases List.mem_cons.mp hj with rfl | hj
    · exact ⟨by simp, hout⟩
    · exact ⟨List.mem_append_left _ (h.dropped j hj).1, (h.dropped j hj).2⟩
  · exact List.nodup_cons.mpr ⟨fun hd => hnew (h.dropped _ hd).1, h.droppedOnce⟩
  · obtain ⟨heq, hc, hret⟩ := h.taken p hp
    exact ⟨heq, List.mem_append_left _ hc, hret⟩
  · rcases h.answered j bytes hj with hc | hr
    · exact .inl (List.mem_append_left _ hc)
    · rw [hm] at hr
      rcases List.mem_cons.mp hr with rfl | hr
      · exact .inl (by simp)
      · exact .inr hr

/-- A call returns with its own reply. -/
theorem Inv.take (h : Inv s) {tag : UInt32} {deadline : ℕ} (hk : s.pc k = .waiting tag deadline)
    {m : ℕ × List UInt8} {rest : List (ℕ × List UInt8)} (hm : s.replies = m :: rest) (hmk : m.1 = k)
    {r : Except String (List UInt8)} (hr : r = .ok m.2 ∨ r = .error "driver reported an error") :
    Inv { s with replies := rest, consumed := s.consumed ++ [m.1], taken := (k, m.1) :: s.taken,
                 pc := Function.update s.pc k (.returned r), inFlight := false } := by
  obtain ⟨hnew, -⟩ := h.head hm
  have hmem : m ∈ s.replies := hm ▸ List.mem_cons_self
  have hret : ∀ r, s.pc k ≠ .returned r := fun r hr => by rw [hk] at hr; cases hr
  have hactive : (s.pc k).Active := by rw [hk]; trivial
  subst hmk
  refine ⟨h.nextTag, ?_, ?_, fun i hi => ?_, h.requests,
    fun x hx => h.replies x (hm ▸ List.mem_cons_of_mem _ hx), ?_, h.once, ?_, fun j hj => ?_,
    fun j hj => ?_, h.droppedOnce, h.stale, fun p hp => ?_, ?_, ?_, fun j bytes hj => ?_⟩
  · refine forall_update (P := fun j q => s.calls ≤ j → q = .notMade) (fun hle => ?_) fun j _ => h.made j
    rw [h.made _ hle] at hk
    cases hk
  · exact forall_update (P := fun j q => q.Tagged j) trivial fun j _ => h.tagged j
  · -- nobody has the lock any more
    refine (forall_update (P := fun j q => ¬q.Active) (p := .returned r) id (fun j hj => ?_) i hi).elim
    exact h.not_active hactive hj
  · rw [Sys.pipeline, Inv.pipeline_take hm]
    exact h.order
  · exact fun j hj => forall_update (P := fun j q => j ∈ s.sent → q.Sent) (p := .returned r)
      (fun _ => trivial) (fun j _ hj => h.sent j hj) j hj
  · rcases List.mem_append.mp hj with hj | hj
    · exact (h.consumed j hj).imp_right fun ht => List.mem_cons_of_mem _ ht
    · rw [List.mem_singleton.mp hj]
      exact .inr List.mem_cons_self
  · dsimp only
    rw [Function.update_of_ne (h.ne_of_dropped hret hj)]
    exact ⟨List.mem_append_left _ (h.dropped j hj).1, (h.dropped j hj).2⟩
  · dsimp only
    rcases List.mem_cons.mp hp with rfl | hp
    · refine ⟨rfl, by simp, ?_⟩
      rw [Function.update_self]
      rcases hr with rfl | rfl
      · exact .inl ⟨_, rfl⟩
      · exact .inr rfl
    · rw [Function.update_of_ne (h.ne_of_taken hret hp)]
      obtain ⟨heq, hc, hret⟩ := h.taken p hp
      exact ⟨heq, List.mem_append_left _ hc, hret⟩
  · refine forall_update (P := fun j q => ∀ r, q = .returned r →
      j ∉ s.sent ∨ q.TimedOut ∨ (j, j) ∈ (m.1, m.1) :: s.taken) (fun r _ => ?_) fun j _ r hj => ?_
    · exact .inr (.inr List.mem_cons_self)
    · exact (h.returned j r hj).imp_right (·.imp_right fun ht => List.mem_cons_of_mem _ ht)
  · refine forall_update (P := fun j q => ∀ bytes, q = .returned (.ok bytes) →
      (j, j) ∈ (m.1, m.1) :: s.taken ∧ s.answer j = some bytes) (fun bytes hq => ?_) fun j _ bytes hj => ?_
    · refine ⟨List.mem_cons_self, ?_⟩
      rcases hr with rfl | rfl
      · cases hq
        exact (h.replies m hmem).2
      · cases hq
    · exact ⟨List.mem_cons_of_mem _ (h.matched j bytes hj).1, (h.matched j bytes hj).2⟩
  · rcases h.answered j bytes hj with hc | hr
    · exact .inl (List.mem_append_left _ hc)
    · rw [hm] at hr
      rcases List.mem_cons.mp hr with rfl | hr
      · exact .inl (by simp)
      · exact .inr hr

/-! ## Runs -/

theorem calls_le (hs : s.step a = some s') : s.calls ≤ s'.calls := by
  cases a <;> simp only [Sys.step] at hs
  case attach => cases hs; exact le_rfl
  case draw => cases hs; exact Nat.le_succ _
  case acquire k =>
    split at hs
    · split_ifs at hs
      cases hs
      exact le_rfl
    · cases hs
  case send k now =>
    split at hs
    · split_ifs at hs <;> cases hs <;> exact le_rfl
    · cases hs
  case poll k now =>
    split at hs
    · split at hs
      · cases hs
        simp only [Sys.receive]
        split_ifs <;> exact le_rfl
      · cases hs
        split_ifs <;> exact le_rfl
    · cases hs
  case driverRecv =>
    split at hs <;> cases hs
    exact le_rfl
  case driverAnswer status data =>
    obtain ⟨m, -, rfl⟩ := Option.map_eq_some_iff.mp hs
    exact le_rfl
  case driverSkip =>
    obtain ⟨m, -, rfl⟩ := Option.map_eq_some_iff.mp hs
    exact le_rfl

/-- Every step keeps the queues, the tags and the lock in order. -/
theorem inv_step (h : Inv s) (hfew : s'.calls < 2 ^ 32) (hs : s.step a = some s') : Inv s' := by
  have hfew' : s.calls < 2 ^ 32 := (calls_le hs).trans_lt hfew
  cases a <;> simp only [Sys.step] at hs
  case attach =>
    cases hs
    exact ⟨h.nextTag, h.made, h.tagged, h.lock, h.requests, h.replies, h.order, h.once, h.sent,
      h.consumed, h.dropped, h.droppedOnce, h.stale, h.taken, h.returned, h.matched, h.answered⟩
  case draw op sector payload =>
    cases hs
    exact h.draw op sector payload
  case acquire k =>
    split at hs
    · rename_i tag msg hk
      have htag := h.tagged k
      rw [hk] at htag
      split_ifs at hs with hflight
      cases hs
      have hnone : ∀ j, ¬(s.pc j).Active := fun j hj => hflight (h.lock j hj).1
      exact h.goto _ (by simp [hk]) (by simp [hk]) htag (by simp [hk, Pc.Sent]) (by simp)
        (fun _ => ⟨rfl, fun j _ => hnone j⟩) fun j _ hj => absurd hj (hnone j)
    · cases hs
  case send k now =>
    split at hs
    · rename_i tag msg hk
      have htag := h.tagged k
      rw [hk] at htag
      have hactive : (s.pc k).Active := by rw [hk]; trivial
      have hunsent : k ∉ s.sent := fun hmem => by
        have := h.sent k hmem
        rw [hk] at this
        exact this
      split_ifs at hs
      · cases hs
        have hgoto := h.goto (k := k) (p := .waiting tag (now + REPLY_TIMEOUT_TICKS))
          s.inFlight (by simp [hk]) (by simp [hk]) htag.1 (fun _ => trivial) (by simp)
          (fun _ => ⟨(h.lock k hactive).1, fun j hj => h.not_active hactive hj⟩)
          fun j hj hj' => absurd hj' (h.not_active hactive hj)
        exact hgoto.enqueue (by simp [Pc.Sent]) hunsent (htag.1 ▸ htag.2) (by simp)
      · cases hs
        exact h.goto _ (by simp [hk]) (by simp [hk]) trivial (fun _ => trivial)
          (fun r hr => by cases hr; exact ⟨nofun, .inl hunsent⟩) False.elim
          fun j hj hj' => absurd hj' (h.not_active hactive hj)
    · cases hs
  case poll k now =>
    split at hs
    · rename_i tag deadline hk
      have htag := h.tagged k
      rw [hk] at htag
      have hactive : (s.pc k).Active := by rw [hk]; trivial
      split at hs
      · rename_i m rest hm
        cases hs
        simp only [Sys.receive]
        by_cases hne : replyTag m.2 = tag
        · -- two calls with the same tag are one
          have hmk : m.1 = k := by
            have hmade : ∀ j, s.pc j ≠ .notMade → j + 1 < 2 ^ 32 := fun j hj => by
              by_contra hlt
              exact hj (h.made j (by omega))
            have hsent := h.sent m.1 (h.head hm).2
            refine tagOf_inj (hmade _ fun hn => ?_) (hmade k (by simp [hk])) ?_
            · rw [hn] at hsent
              exact hsent
            · rw [← (h.replies m (hm ▸ List.mem_cons_self)).1, hne, htag]
          rw [if_neg (not_not.mpr hne)]
          split_ifs
          · exact h.take hk hm hmk (.inl rfl)
          · exact h.take hk hm hmk (.inr rfl)
        · rw [if_pos hne]
          exact h.drop hk hm hne
      · cases hs
        split_ifs
        · exact h.goto _ (by simp [hk]) (by simp [hk]) trivial (fun _ => trivial)
            (fun r hr => by cases hr; exact ⟨nofun, .inr rfl⟩) False.elim
            fun j hj hj' => absurd hj' (h.not_active hactive hj)
        · exact h
    · cases hs
  case driverRecv =>
    split at hs
    · rename_i m rest hbusy hreq
      cases hs
      exact h.driver (by rw [hbusy, hreq]; exact List.Sublist.refl _)
    · cases hs
  case driverAnswer status data =>
    obtain ⟨m, hm, rfl⟩ := Option.map_eq_some_iff.mp hs
    exact h.answer hm status data
  case driverSkip =>
    obtain ⟨m, hm, rfl⟩ := Option.map_eq_some_iff.mp hs
    exact h.driver (by simp)

end

/-- In a list without duplicates only one order is possible. -/
theorem not_both_orders {l : List ℕ} (hl : l.Nodup) {j k : ℕ} (h : [j, k].Sublist l)
    (h' : [k, j].Sublist l) : False := by
  induction l with
  | nil => cases h
  | cons x l ih =>
    obtain ⟨hx, hl⟩ := List.nodup_cons.mp hl
    have hnot : ∀ {a b : ℕ}, [a, b].Sublist (x :: l) → x ≠ b := by
      rintro a b hab rfl
      rcases List.sublist_cons_iff.mp hab with hab | ⟨r, hr, hab⟩
      · exact hx (hab.subset (by simp))
      · cases hr
        exact hx (hab.subset (by simp))
    have hcons : ∀ {a b : ℕ}, [a, b].Sublist (x :: l) → x ≠ a → [a, b].Sublist l := by
      intro a b hab hne
      rcases List.sublist_cons_iff.mp hab with hab | ⟨r, hr, -⟩
      · exact hab
      · cases hr
        exact absurd rfl hne
    exact ih hl (hcons h (hnot h')) (hcons h' (hnot h))

/-- Replies come to the calls that they answer. -/
structure Matched (s : Sys) : Prop where
  /-- a call that got a reply got its own -/
  own : ∀ p ∈ s.taken, p.2 = p.1
  /-- what a call returns as `Ok` is what the driver answered to it -/
  reply : ∀ k bytes, s.pc k = .returned (.ok bytes) → (k, k) ∈ s.taken ∧ s.answer k = some bytes
  /-- no reply leaves the channel twice -/
  once : s.consumed.Nodup
  /-- only replies of calls that timed out are dropped, each once -/
  dropped : s.dropped.Nodup ∧ ∀ k ∈ s.dropped, (s.pc k).TimedOut ∧ k ∈ s.consumed
  /-- the reply of a call that timed out was dropped, or is in the channel still -/
  late : ∀ k bytes, (s.pc k).TimedOut → s.answer k = some bytes →
    k ∈ s.dropped ∨ k ∉ s.consumed ∧ (k, bytes) ∈ s.replies
  /-- it is dropped before a later request gets its reply -/
  before : ∀ j k, [j, k].Sublist s.sent → (k, k) ∈ s.taken → (s.pc j).TimedOut →
    (s.answer j).isSome → j ∈ s.dropped
  stale : s.stale = s.dropped.length

theorem matched {s : Sys} (h : Inv s) : Matched s := by
  have htimed : ∀ k, (s.pc k).TimedOut → k ∈ s.consumed → k ∈ s.dropped := by
    intro k hout hc
    refine (h.consumed k hc).resolve_right fun ht => ?_
    obtain ⟨-, -, ⟨bytes, hret⟩ | hret⟩ := h.taken _ ht
    · cases hout.symm.trans hret
    · have := hout.symm.trans hret
      simp at this
  have hdisj : ∀ m ∈ s.replies, m.1 ∉ s.consumed := by
    intro m hm hc
    refine (List.nodup_append.mp h.pipeline_nodup).2.2 m.1 hc m.1 ?_ rfl
    exact List.mem_append_left _ (List.mem_map_of_mem hm)
  refine ⟨fun p hp => (h.taken p hp).1, h.matched, ?_, ⟨h.droppedOnce, fun k hk => ?_⟩,
    fun k bytes hout hans => ?_, fun j k hjk hk hout hans => ?_, h.stale⟩
  · exact (List.nodup_append.mp h.pipeline_nodup).1
  · exact ⟨(h.dropped k hk).2, (h.dropped k hk).1⟩
  · rcases h.answered k bytes hans with hc | hr
    · exact .inl (htimed k hout hc)
    · exact .inr ⟨hdisj _ hr, hr⟩
  · obtain ⟨bytes, hans⟩ := Option.isSome_iff_exists.mp hans
    refine htimed j hout ((h.answered j bytes hans).resolve_right fun hr => ?_)
    -- a reply that is still in the channel would be behind the later one
    refine not_both_orders h.once hjk (List.Sublist.trans ?_ h.order)
    have htaken : List.Sublist [k] _ := List.singleton_sublist.mpr (h.taken _ hk).2.1
    refine htaken.append ?_
    exact List.singleton_sublist.mpr (List.mem_append_left _ (List.mem_map.mpr ⟨_, hr, rfl⟩))

/-- As long as fewer than `2 ^ 32` calls were made, every reply that a call returns is the
driver's reply to its own request, and the reply of a call that timed out is dropped once. -/
theorem replies_matched {s : Sys} (h : Run.Reachable Sys.step Run.always (· = Sys.init) s)
    (hfew : s.calls < 2 ^ 32) : Matched s := by
  refine matched (h.invariant (fun s => s.calls < 2 ^ 32 → Inv s) ?_ ?_ hfew)
  · rintro s rfl -
    exact inv_init
  · exact fun s a s' hinv _ hs hfew => inv_step (hinv ((calls_le hs).trans_lt hfew)) hfew hs

/-- The first call times out and the driver answers it afterwards; the second call drops that
reply and returns its own. -/
def lateReply : List Act :=
  [.attach, .draw 1 7 [], .acquire 0, .send 0 0, .poll 0 801, .driverRecv, .driverAnswer 0 [1],
    .draw 1 8 [], .acquire 1, .send 1 900, .driverRecv, .driverAnswer 0 [2], .poll 1 901,
    .poll 1 902]

def lateReplyState : Sys := (Run.exec Sys.step Sys.init lateReply).getD Sys.init

theorem replies_matched_lateReplyState :
    lateReplyState.pc 1 = .returned (.ok (reply 0 (header 1 2 8 ++ []) [2])) ∧
      lateReplyState.dropped = [0] ∧ Matched lateReplyState := by
  have hrun : Run.exec Sys.step Sys.init lateReply = some lateReplyState := rfl
  exact ⟨rfl, rfl, replies_matched (Run.reachable_of_exec rfl hrun) (by decide)⟩

end JungeyOs.RoundTrip
