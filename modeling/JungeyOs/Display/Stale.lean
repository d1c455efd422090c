import JungeyOs.Display.Damage
import JungeyOs.Lib.Run

/-!
# What the device has not been sent

`compose` (`user/src/gpudrv.rs`, lines 561–574) redraws the damage, calls `present_rect`, and empties the
damage whatever that returns. Here the server runs beside a copy of the framebuffer that follows it on each
rectangle that was sent: the one the host holds, or the one it has put on the screen.

Results:
* `damage_perform`: a command that is no compose keeps what is damaged.
* `fresh_step`: what a command does to the pixels that are neither damaged nor up to date.
* `fresh_throughout_iff`: the runs in which there are none.
-/

namespace JungeyOs.Display

open Painter

/-- The copies that follow the framebuffer: the host's after a transfer, the screen's after a flush too. -/
inductive Copy
  | host
  | screen

/-- `present_rect` with `n` commands before it comes as far as the copy. -/
def Copy.Taken (env : Env) (n : ℕ) : Copy → Bool
  | host => env.device n
  | screen => env.device n && env.device (n + 1)

/-- The copy after `present_rect`. -/
def Copy.sent (copy : ℕ → UInt32) (taken : Bool) (r : Rect) (fb : ℕ → UInt32) : ℕ → UInt32 := fun a =>
  if taken ∧ r.clampToScreen.Contains (a % WIDTH) (a / WIDTH) then fb a else copy a

/-- The server and a copy of its framebuffer. -/
structure Mirrored where
  server : Server
  copy : ℕ → UInt32

namespace Mirrored

/-- The start, with what the copy holds before. -/
def start (env : Env) (kind : Copy) (fb copy : ℕ → UInt32) : Mirrored where
  server := Server.start env fb
  copy := Copy.sent copy (kind.Taken env 0) Rect.screen (Server.start env fb).fb

/-- A command of a sender. -/
def step (env : Env) (kind : Copy) (m : Mirrored) (act : ℕ × Request) : Option Mirrored :=
  let server := m.server.perform env act.1 act.2
  match act.2 with
  | .present =>
    some { server, copy := Copy.sent m.copy (kind.Taken env m.server.submits) m.server.wm.damage server.fb }
  | _ => some { server, copy := m.copy }

/-- Every pixel at which the copy is not the framebuffer is damaged. -/
def Fresh (m : Mirrored) : Prop :=
  ∀ px py, px < WIDTH → py < HEIGHT → m.copy (py * WIDTH + px) ≠ m.server.fb (py * WIDTH + px) →
    m.server.wm.damage.Contains px py

end Mirrored

namespace Server

section

variable {env : Env} {sender : ℕ} {s : Server} {req : Request} {px py : ℕ}

/-! ## Commands that are no compose -/

theorem routeTap_same (env : Env) (s : Server) (x y : ℕ) :
    (s.routeTap env x y).wm.damage = s.wm.damage ∧ (s.routeTap env x y).fb = s.fb := by
  rw [routeTap]
  cases s.wm.hit x y with
  | none => exact ⟨rfl, rfl⟩
  | some r =>
    obtain ⟨owner, id, rx, ry⟩ := r
    simp only
    cases s.slot owner with
    | none => exact ⟨rfl, rfl⟩
    | some slot =>
      simp only
      split_ifs <;> exact ⟨rfl, rfl⟩

theorem fb_perform (hreq : req ≠ .present) : (s.perform env sender req).fb = s.fb := by
  cases req with
  | present => exact absurd rfl hreq
  | input x y down =>
    rw [perform]
    split_ifs
    · exact (routeTap_same env s x y).2
    · rfl
  | _ => rfl

/-- A command that is no compose keeps what is damaged. -/
theorem damage_perform (hreq : req ≠ .present) (hx : px < WIDTH) (hy : py < HEIGHT)
    (h : s.wm.damage.Contains px py) : (s.perform env sender req).wm.damage.Contains px py := by
  -- an operation on windows that left the point out would not have found it damaged
  have hchange : ∀ {m' : Wm} {id : UInt8}, Wm.Change s.wm m' sender id → m'.damage.Contains px py := by
    intro m' id hc
    by_contra hout
    have hbefore : ¬s.wm.damage.Contains px py ∧ (s.wm.SameAt s.wm px py → s.wm.SameAt m' px py) :=
      sameAt_change hc hx hy hout
    exact hbefore.1 h
  cases req with
  | clear bytes => exact (Rect.contains_screen px py).mpr ⟨hx, hy⟩
  | draw bytes damage => exact Wm.dirty_covers s.wm damage px py hx hy (Or.inl h)
  | present => exact absurd rfl hreq
  | input x y down =>
    rw [perform]
    split_ifs
    · rw [(routeTap_same env s x y).1]
      exact h
    · exact h
  | create id r bg title => exact hchange (s.wm.create_change sender id r bg title)
  | raise id => exact hchange (s.wm.raise_change sender id)
  | move id x y => exact hchange (s.wm.move_change sender id x y)
  | push id cmd => exact hchange (s.wm.push_change sender id cmd)
  | reset id => exact hchange (s.wm.reset_change sender id)
  | client pids => exact h
  | stats => exact h
  | shutdown => exact h

/-! ## A compose -/

/-- What `compose` leaves in the framebuffer. -/
def redrawn (s : Server) : ℕ → UInt32 := apply (s.writes (setClip s.wm.damage.clampToScreen)) s.fb

theorem redrawn_of_not_contains {a : ℕ}
    (h : ¬s.wm.damage.clampToScreen.Contains (a % WIDTH) (a / WIDTH)) : s.redrawn a = s.fb a := by
  have hclip : ¬(setClip s.wm.damage.clampToScreen).rect.Contains (a % WIDTH) (a / WIDTH) := by
    rw [setClip, Rect.contains_clampToScreen]
    exact fun hc => h hc.1
  rw [redrawn, apply_eq, last_writes_cut, if_neg hclip]
  rfl

/-- There is nothing to redraw. -/
theorem not_contains_of_empty {r : Rect} (h : r.w = 0 ∨ r.h = 0) (px py : ℕ) : ¬r.Contains px py := by
  rw [Rect.contains_iff]
  omega

theorem fb_present (env : Env) (s : Server) (r : Rect) : (s.present env r).fb = s.fb := by
  simp only [present]
  split_ifs <;> rfl

theorem compose_redrawn (env : Env) (s : Server) : (s.compose env).fb = s.redrawn := by
  by_cases hempty : s.wm.damage.clampToScreen.w = 0 ∨ s.wm.damage.clampToScreen.h = 0
  · funext a
    rw [compose, if_pos hempty, redrawn_of_not_contains (not_contains_of_empty hempty _ _)]
  · rw [compose, if_neg hempty]
    exact fb_present env _ _

/-- A compose leaves nothing damaged. -/
theorem compose_damage (env : Env) (s : Server) {px py : ℕ} (hx : px < WIDTH) (hy : py < HEIGHT) :
    ¬(s.compose env).wm.damage.Contains px py := by
  by_cases hempty : s.wm.damage.clampToScreen.w = 0 ∨ s.wm.damage.clampToScreen.h = 0
  · rw [compose, if_pos hempty]
    intro h
    exact not_contains_of_empty hempty px py ((Rect.contains_clampToScreen _ _ _).mpr ⟨h, hx, hy⟩)
  · rw [compose, if_neg hempty]
    exact not_contains_of_empty (Or.inl rfl) px py

end

end Server

namespace Mirrored

/-- A compose is sent, or draws over the damage what the copy has there. -/
def Delivered (env : Env) (kind : Copy) (m : Mirrored) (act : ℕ × Request) : Prop :=
  act.2 = .present → kind.Taken env m.server.submits ∨
    ∀ px py, px < WIDTH → py < HEIGHT → m.server.wm.damage.Contains px py →
      m.copy (py * WIDTH + px) = m.server.redrawn (py * WIDTH + px)

variable {env : Env} {kind : Copy} {m : Mirrored}

/-- The copy of a pixel after `present_rect`. -/
theorem sent_pixel (copy fb : ℕ → UInt32) (taken : Bool) (r : Rect) {px py : ℕ} (hx : px < WIDTH)
    (hy : py < HEIGHT) : Copy.sent copy taken r fb (py * WIDTH + px) =
      if taken ∧ r.Contains px py then fb (py * WIDTH + px) else copy (py * WIDTH + px) := by
  obtain ⟨hmod, hdiv⟩ := pixel_of_word py hx
  simp only [Copy.sent, hmod, hdiv, Rect.contains_clampToScreen, hx, hy, and_self, and_true]

/-- The server and the copy after a compose. -/
def composed (env : Env) (kind : Copy) (m : Mirrored) : Mirrored where
  server := m.server.compose env
  copy := Copy.sent m.copy (kind.Taken env m.server.submits) m.server.wm.damage (m.server.compose env).fb

/-- What the copy holds of a pixel after a compose. -/
theorem composed_pixel (env : Env) (kind : Copy) (m : Mirrored) {px py : ℕ} (hx : px < WIDTH)
    (hy : py < HEIGHT) : (m.composed env kind).copy (py * WIDTH + px) =
      if kind.Taken env m.server.submits ∧ m.server.wm.damage.Contains px py
      then m.server.redrawn (py * WIDTH + px) else m.copy (py * WIDTH + px) := by
  have hsent := sent_pixel m.copy (m.server.compose env).fb (kind.Taken env m.server.submits)
    m.server.wm.damage hx hy
  rw [Server.compose_redrawn] at hsent
  rw [← hsent, ← Server.compose_redrawn env]
  rfl

/-- After a compose nothing is damaged, so that the copy has to be the framebuffer. -/
theorem fresh_composed (env : Env) (kind : Copy) (m : Mirrored) : (m.composed env kind).Fresh ↔
    ∀ px py, px < WIDTH → py < HEIGHT →
      (m.composed env kind).copy (py * WIDTH + px) = m.server.redrawn (py * WIDTH + px) := by
  have hfb : (m.composed env kind).server.fb = m.server.redrawn := Server.compose_redrawn env m.server
  rw [Fresh, hfb]
  constructor
  · intro h px py hx hy
    by_contra hne
    exact Server.compose_damage env m.server hx hy (h px py hx hy hne)
  · intro h px py hx hy hne
    exact absurd (h px py hx hy) hne

/-- A compose keeps the copy up to date exactly if it is delivered. -/
theorem fresh_compose (hfresh : m.Fresh) (sender : ℕ) :
    (m.composed env kind).Fresh ↔ Delivered env kind m (sender, .present) := by
  rw [fresh_composed]
  constructor
  · intro h _
    by_cases htaken : kind.Taken env m.server.submits
    · exact Or.inl htaken
    · refine Or.inr fun px py hx hy _ => ?_
      have hsame := h px py hx hy
      rwa [composed_pixel env kind m hx hy, if_neg fun hc => htaken hc.1] at hsame
  · intro h px py hx hy
    rw [composed_pixel env kind m hx hy]
    by_cases hin : m.server.wm.damage.Contains px py
    · rcases h rfl with htaken | hsame
      · rw [if_pos ⟨htaken, hin⟩]
      · rw [hsame px py hx hy hin, ite_self]
    · -- outside the damage nothing is redrawn, and nothing is sent
      obtain ⟨hmod, hdiv⟩ := pixel_of_word py hx
      have hout : ¬m.server.wm.damage.clampToScreen.Contains ((py * WIDTH + px) % WIDTH)
          ((py * WIDTH + px) / WIDTH) := by
        rw [hmod, hdiv, Rect.contains_clampToScreen]
        exact fun hc => hin hc.1
      rw [if_neg fun hc => hin hc.2, Server.redrawn_of_not_contains hout]
      by_contra hstale
      exact hin (hfresh px py hx hy hstale)

/-- A command leaves no pixel stale that is not damaged, unless it is a compose that is not delivered. -/
theorem fresh_step {act : ℕ × Request} {m' : Mirrored} (hfresh : m.Fresh)
    (hstep : m.step env kind act = some m') : m'.Fresh ↔ Delivered env kind m act := by
  obtain ⟨sender, req⟩ := act
  by_cases hreq : req = .present
  · subst hreq
    obtain rfl := Option.some.inj hstep
    exact fresh_compose hfresh sender
  · have hother : some { server := m.server.perform env sender req, copy := m.copy } = some m' := by
      rw [← hstep, step]
      cases req with
      | present => exact absurd rfl hreq
      | _ => rfl
    obtain rfl := Option.some.inj hother
    refine iff_of_true (fun px py hx hy hne => ?_) fun h => absurd h hreq
    rw [Server.fb_perform hreq] at hne
    exact Server.damage_perform hreq hx hy (hfresh px py hx hy hne)

/-- The start is sent, or what the copy holds before is black. -/
def Begun (env : Env) (kind : Copy) (copy : ℕ → UInt32) : Prop :=
  kind.Taken env 0 ∨ ∀ px py, px < WIDTH → py < HEIGHT → copy (py * WIDTH + px) = 0xff000000

theorem start_fb (env : Env) (fb : ℕ → UInt32) : (Server.start env fb).fb =
    apply ((Draw.fill 0 0 WIDTH HEIGHT 0xff000000).writes wholeScreen) fb := by
  rw [Server.start, Server.fb_present, Draw.writes, wholeScreen]

/-- The screen is black at the start. -/
theorem start_black (env : Env) (fb : ℕ → UInt32) {px py : ℕ} (hx : px < WIDTH) (hy : py < HEIGHT) :
    (Server.start env fb).fb (py * WIDTH + px) = 0xff000000 := by
  obtain ⟨hmod, hdiv⟩ := pixel_of_word py hx
  have hlast := Draw.last_writes wholeScreen (.fill 0 0 WIDTH HEIGHT 0xff000000) (py * WIDTH + px)
  rw [hmod, hdiv, if_pos ⟨contains_wholeScreen.mpr ⟨hx, hy⟩, _, List.mem_singleton_self _,
    (Rect.contains_screen px py).mpr ⟨hx, hy⟩⟩] at hlast
  rw [start_fb, apply_eq, hlast]
  rfl

/-- What the copy holds of a pixel at the start. -/
theorem start_pixel (fb copy : ℕ → UInt32) {px py : ℕ} (hx : px < WIDTH) (hy : py < HEIGHT) :
    (start env kind fb copy).copy (py * WIDTH + px) =
      if kind.Taken env 0 then 0xff000000 else copy (py * WIDTH + px) := by
  have hsent := sent_pixel copy (Server.start env fb).fb (kind.Taken env 0) Rect.screen hx hy
  simp only [start_black env fb hx hy, Rect.contains_screen, hx, hy, and_self, and_true] at hsent
  exact hsent

/-- Nothing is damaged at the start. -/
theorem fresh_start (fb copy : ℕ → UInt32) : (start env kind fb copy).Fresh ↔ Begun env kind copy := by
  have hblack : ∀ {px py}, px < WIDTH → py < HEIGHT →
      (start env kind fb copy).server.fb (py * WIDTH + px) = 0xff000000 := start_black env fb
  have hdamage : (start env kind fb copy).server.wm.damage = Rect.EMPTY :=
    congrArg Wm.damage (Server.present_wm env _ _)
  rw [Fresh, hdamage]
  constructor
  · intro h
    by_cases htaken : kind.Taken env 0
    · exact Or.inl htaken
    · refine Or.inr fun px py hx hy => ?_
      have hin := h px py hx hy
      rw [start_pixel fb copy hx hy, if_neg htaken, hblack hx hy] at hin
      by_contra hne
      exact Server.not_contains_of_empty (Or.inl rfl) px py (hin hne)
  · intro h px py hx hy hne
    rw [start_pixel fb copy hx hy, hblack hx hy] at hne
    rcases h with htaken | hsame
    · exact absurd (if_pos htaken) hne
    · exact absurd (by rw [hsame px py hx hy, ite_self]) hne

/-- In a run every pixel that is not up to date is damaged at all times exactly if the start and every
compose is sent, or draws what the copy has. -/
theorem fresh_throughout_iff (env : Env) (kind : Copy) (fb copy : ℕ → UInt32)
    (acts : List (ℕ × Request)) :
    Run.Throughout (fun m act => m.step env kind act) Fresh (start env kind fb copy) acts ↔
      Begun env kind copy ∧
        Run.Meets (fun m act => m.step env kind act) (Delivered env kind) (start env kind fb copy) acts := by
  by_cases hbegun : Begun env kind copy
  · rw [Run.throughout_iff_meets (fun _ => True) (fun _ _ _ _ _ _ => trivial)
      (fun _ _ _ _ hfresh hstep => fresh_step hfresh hstep) ?_ trivial ((fresh_start fb copy).mpr hbegun),
      and_iff_right hbegun]
    intro m act _ hnone
    obtain ⟨sender, req⟩ := act
    cases req <;> exact nomatch hnone
  · exact iff_of_false (fun h => hbegun ((fresh_start fb copy).mp h.start)) fun h => hbegun h.1

/-! ## A transfer that fails -/

/-- A device that takes the first two commands. -/
def refusing : Env where
  device n := n < 2
  accepts _ := true

/-- The server after the first `CLEAR` of the kernel, with the copy of the host. -/
def cleared : Mirrored where
  server := (Server.start refusing fun _ => 0).perform refusing KERNEL
    (.clear [OP_CLEAR, 0x22, 0x11, 0x00, 0xff])
  copy := (start refusing .host (fun _ => 0) fun _ => 0).copy

theorem cleared_redrawn : cleared.server.redrawn (0 * WIDTH + 0) = 0xff001122 := by
  have hclip : (setClip cleared.server.wm.damage.clampToScreen).rect.Contains
      ((0 * WIDTH + 0) % WIDTH) ((0 * WIDTH + 0) / WIDTH) := by decide
  have hroot : rootPaint cleared.server.root = [.fill 0 0 WIDTH HEIGHT 0xff001122] := by decide
  have hwm : cleared.server.wm.writes wholeScreen = [] := rfl
  have hlast := Draw.last_writes wholeScreen (.fill 0 0 WIDTH HEIGHT 0xff001122) (0 * WIDTH + 0)
  rw [if_pos (by decide)] at hlast
  rw [Server.redrawn, apply_eq, Server.last_writes_cut, if_pos hclip, Server.writes, hroot, hwm,
    List.append_nil, List.flatMap_singleton, hlast]
  rfl

/-- A frame whose transfer fails is not sent again. -/
theorem refused_stale : ¬∀ (env : Env) (kind : Copy) (fb copy : ℕ → UInt32) (acts : List (ℕ × Request)),
    Run.Throughout (fun m act => m.step env kind act) Fresh (start env kind fb copy) acts := by
  intro h
  have hrun := h refusing .host (fun _ => 0) (fun _ => 0)
    [(KERNEL, .clear [OP_CLEAR, 0x22, 0x11, 0x00, 0xff]), (KERNEL, .present)]
  have hcomposed := ((hrun.2 cleared rfl).2 (cleared.composed refusing .host) rfl).start
  have hsame := (fresh_composed refusing .host cleared).mp hcomposed 0 0 (by decide) (by decide)
  have hcopy : cleared.copy = (start refusing .host (fun _ => 0) fun _ => 0).copy := rfl
  rw [composed_pixel _ _ _ (by decide) (by decide), if_neg (by decide), cleared_redrawn, hcopy,
    start_pixel _ _ (by decide) (by decide), if_pos (by decide)] at hsame
  exact absurd hsame (by decide)

end Mirrored

end JungeyOs.Display
