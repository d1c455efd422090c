import JungeyOs.Display.Authority
import JungeyOs.Display.Background

/-!
# Redrawing the damage

`compose` redraws the damaged rectangle only. Every operation has to damage each pixel
that it changes: then what is outside the damage looks as it did after the last compose,
and a compose shows what redrawing the whole screen would.

Results:
* `alike_last`: where no window that contains a point has changed, and no background
  command since reaches it, the picture there is the same.
* `shown_perform`: every command keeps the invariant (`Shown`).
* `compose_shows`: after a compose the framebuffer is the whole picture.
-/

namespace JungeyOs.Display

open Painter Reads

/-- The clip of a full repaint. -/
def wholeScreen : Clip := setClip Rect.screen

theorem contains_wholeScreen {px py : ℕ} :
    wholeScreen.rect.Contains px py ↔ px < WIDTH ∧ py < HEIGHT := by
  rw [wholeScreen, setClip, Rect.contains_clampToScreen, Rect.contains_screen, and_self]

/-- A call painted in part. -/
theorem last_draw_cut (clip : Clip) (d : Draw) (a : ℕ) :
    last (d.writes clip) a =
      if clip.rect.Contains (a % WIDTH) (a / WIDTH) then last (d.writes wholeScreen) a else none := by
  rw [d.last_writes, d.last_writes]
  by_cases h : clip.rect.Contains (a % WIDTH) (a / WIDTH)
  · have hscreen := contains_wholeScreen.mpr (Clip.on_screen h)
    simp [h, hscreen]
  · simp [h]

/-- Calls painted in part. -/
theorem last_draws_cut (clip : Clip) (ds : List Draw) (a : ℕ) :
    last (ds.flatMap (Draw.writes clip)) a =
      if clip.rect.Contains (a % WIDTH) (a / WIDTH) then last (ds.flatMap (Draw.writes wholeScreen)) a
      else none := by
  induction ds with
  | nil => simp
  | cons d ds ih =>
    rw [List.flatMap_cons, List.flatMap_cons, last_append, last_append, ih, last_draw_cut]
    by_cases h : clip.rect.Contains (a % WIDTH) (a / WIDTH) <;> simp [h]

namespace Wm

/-- The windows that contain a point, bottom to top. -/
def stackAt (m : Wm) (px py : ℕ) : List (Fin MAX_WINDOWS) :=
  m.order.filter fun i => (m.windows i).rect.Contains px py

theorem mem_stackAt {m : Wm} {px py : ℕ} {i : Fin MAX_WINDOWS} :
    i ∈ m.stackAt px py ↔ m.Holds px py i := by
  simp [stackAt, mem_order, Holds]

/-- Only windows that contain a point matter there, if all paint inside their rectangles. -/
theorem last_writes_stackAt {m : Wm} (hfits : m.Fits wholeScreen) (a : ℕ) :
    last (m.writes wholeScreen) a =
      last ((m.stackAt (a % WIDTH) (a / WIDTH)).flatMap
        fun i => (m.windows i).writes wholeScreen) a := by
  rw [writes_eq, stackAt, last_flatMap_filter]
  intro i hi hout
  rw [last_eq_none_iff]
  intro c hc
  have hin := confined_iff.mpr (hfits i (mem_order.mp hi)) a c hc
  simp [hin] at hout

/-- Slot by slot, the windows at the point are the same. -/
def SameAt (m₀ m : Wm) (px py : ℕ) : Prop :=
  ∀ k, m.windows k = m₀.windows k ∨ ¬m.Holds px py k ∧ ¬m₀.Holds px py k

theorem SameAt.holds_iff {m₀ m : Wm} {px py : ℕ} (h : SameAt m₀ m px py) (k : Fin MAX_WINDOWS) :
    m.Holds px py k ↔ m₀.Holds px py k := by
  rcases h k with hk | hk
  · rw [Holds, Holds, hk]
  · exact iff_of_false hk.1 hk.2

theorem SameAt.windows_eq {m₀ m : Wm} {px py : ℕ} (h : SameAt m₀ m px py) {k : Fin MAX_WINDOWS}
    (hk : m.Holds px py k) : m.windows k = m₀.windows k :=
  (h k).resolve_right fun hn => hn.1 hk

theorem stackAt_sorted {m : Wm} (hm : Inv m) (px py : ℕ) :
    (m.stackAt px py).Pairwise fun i j => (m.windows i).z < (m.windows j).z :=
  (order_strict hm).filter _

theorem stackAt_nodup (m : Wm) (px py : ℕ) : (m.stackAt px py).Nodup :=
  (order_nodup m).filter _

/-- The same windows are stacked in the same order. -/
theorem stackAt_eq {m₀ m : Wm} (hm₀ : Inv m₀) (hm : Inv m) {px py : ℕ} (h : SameAt m₀ m px py) :
    m.stackAt px py = m₀.stackAt px py := by
  have hperm : (m.stackAt px py).Perm (m₀.stackAt px py) := by
    rw [List.perm_ext_iff_of_nodup (stackAt_nodup m px py) (stackAt_nodup m₀ px py)]
    intro k
    rw [mem_stackAt, mem_stackAt, h.holds_iff]
  have hsorted₀ : (m₀.stackAt px py).Pairwise fun i j => (m.windows i).z < (m.windows j).z := by
    apply (stackAt_sorted hm₀ px py).imp_of_mem
    intro i j hi hj hlt
    rw [h.windows_eq ((h.holds_iff i).mpr (mem_stackAt.mp hi)),
      h.windows_eq ((h.holds_iff j).mpr (mem_stackAt.mp hj))]
    exact hlt
  apply hperm.eq_of_pairwise ?_ (stackAt_sorted hm px py) hsorted₀
  intro i j _ _ hij hji
  omega

/-- What the windows paint at the point is the same. -/
theorem last_writes_eq {m₀ m : Wm} (hm₀ : Inv m₀) (hm : Inv m) (hfits₀ : m₀.Fits wholeScreen)
    (hfits : m.Fits wholeScreen) {a : ℕ} (h : SameAt m₀ m (a % WIDTH) (a / WIDTH)) :
    last (m.writes wholeScreen) a = last (m₀.writes wholeScreen) a := by
  rw [last_writes_stackAt hfits, last_writes_stackAt hfits₀, stackAt_eq hm₀ hm h]
  congr 1
  apply List.flatMap_congr
  intro i hi
  rw [h.windows_eq ((h.holds_iff i).mpr (mem_stackAt.mp hi))]

end Wm

namespace Server

/-- Where `s` is not damaged, it looks at the point as `s₀` does: the background paints the
same there, and the windows that contain the point have not changed. -/
structure AlikeAt (s₀ s : Server) (px py : ℕ) : Prop where
  root : last ((rootPaint s.root).flatMap (Draw.writes wholeScreen)) (py * WIDTH + px) =
    last ((rootPaint s₀.root).flatMap (Draw.writes wholeScreen)) (py * WIDTH + px)
  windows : s₀.wm.SameAt s.wm px py

/-- Outside the damage, `s` looks as `s₀`. -/
def Alike (s₀ s : Server) : Prop :=
  ∀ px py, px < WIDTH → py < HEIGHT → ¬s.wm.damage.Contains px py → AlikeAt s₀ s px py

/-- `s` shows the picture of `s₀`, which it was at the last compose. -/
structure Shows (s₀ s : Server) : Prop where
  wm : Wm.Inv s₀.wm
  fits : s₀.wm.Fits wholeScreen
  fb : ∀ a, s.fb a = (last (s₀.writes wholeScreen) a).getD (s.fb a)
  alike : Alike s₀ s

/-- The background is a list of whole commands that begins with a `CLEAR`. -/
def Cleared (root : List UInt8) : Prop :=
  root = [] ∨ ∃ color ds, EncodesAll root (.fill 0 0 WIDTH HEIGHT color :: ds)

/-- The invariant of the server. -/
structure Shown (s : Server) : Prop where
  wm : Wm.Inv s.wm
  root : Cleared s.root
  shows : ∃ s₀, Shows s₀ s

/-- What is assumed of a command: a background command comes after a `CLEAR` and has room
in the list, and at a compose all windows fit in their rectangles. -/
def Allowed (s : Server) : Request × ℕ → Prop
  | (.draw _ _, len) => s.root ≠ [] ∧ s.Keeps len
  | (.present, _) => s.wm.Fits wholeScreen
  | _ => True

theorem Cleared.encodes {root : List UInt8} (h : Cleared root) : ∃ ds, EncodesAll root ds := by
  rcases h with rfl | ⟨color, ds, h⟩
  · exact ⟨[], .nil⟩
  · exact ⟨_, h⟩

/-- Outside the damage nothing has to be redrawn. -/
theorem alike_last {s₀ s : Server} (h : Shows s₀ s) (hm : Wm.Inv s.wm)
    (hfits : s.wm.Fits wholeScreen) {a : ℕ}
    (ha : ¬s.wm.damage.clampToScreen.Contains (a % WIDTH) (a / WIDTH)) :
    last (s.writes wholeScreen) a = last (s₀.writes wholeScreen) a := by
  have hx : a % WIDTH < WIDTH := Nat.mod_lt _ (by decide)
  rw [writes, writes, last_append, last_append]
  by_cases hy : a / WIDTH < HEIGHT
  · have hout : ¬s.wm.damage.Contains (a % WIDTH) (a / WIDTH) := by
      intro hd
      exact ha ((Rect.contains_clampToScreen _ _ _).mpr ⟨hd, hx, hy⟩)
    have halike := h.alike _ _ hx hy hout
    have hroot := halike.root
    rw [word_of_pixel] at hroot
    rw [hroot, Wm.last_writes_eq h.wm hm h.fits hfits halike.windows]
  · -- the word is not on the screen
    have hnone : ∀ ds : List Draw, last (ds.flatMap (Draw.writes wholeScreen)) a = none := by
      intro ds
      rw [last_draws_cut, if_neg]
      rw [contains_wholeScreen]
      exact fun hc => hy hc.2
    have hroot := hnone (rootPaint s.root)
    have hroot₀ := hnone (rootPaint s₀.root)
    have hwm := hnone s.wm.paint.1
    have hwm₀ := hnone s₀.wm.paint.1
    rw [hroot, hroot₀, Wm.writes, Wm.writes, hwm, hwm₀]

/-- What a clip leaves of the whole picture. -/
theorem last_writes_cut (s : Server) (clip : Clip) (a : ℕ) :
    last (s.writes clip) a =
      if clip.rect.Contains (a % WIDTH) (a / WIDTH) then last (s.writes wholeScreen) a else none := by
  have hroot := last_draws_cut clip (rootPaint s.root) a
  have hwm := last_draws_cut clip s.wm.paint.1 a
  rw [writes, writes, last_append, last_append, Wm.writes, Wm.writes, hroot, hwm]
  by_cases h : clip.rect.Contains (a % WIDTH) (a / WIDTH) <;> simp [h]

/-- After a compose the framebuffer is the whole picture. -/
theorem fb_compose {s₀ s : Server} (h : Shows s₀ s) (hm : Wm.Inv s.wm)
    (hfits : s.wm.Fits wholeScreen) (env : Env) (a : ℕ) :
    (s.compose env).fb a = (last (s.writes wholeScreen) a).getD (s.fb a) := by
  simp only [compose]
  by_cases hempty : s.wm.damage.clampToScreen.w = 0 ∨ s.wm.damage.clampToScreen.h = 0
  · rw [if_pos hempty]
    have hout : ¬s.wm.damage.clampToScreen.Contains (a % WIDTH) (a / WIDTH) := by
      rw [Rect.contains_iff]
      omega
    rw [alike_last h hm hfits hout]
    exact h.fb a
  · rw [if_neg hempty]
    have hclip : ∀ px py, (setClip s.wm.damage.clampToScreen).rect.Contains px py ↔
        s.wm.damage.clampToScreen.Contains px py := by
      intro px py
      rw [setClip, Rect.contains_clampToScreen, Rect.contains_clampToScreen]
      tauto
    have hfb : ∀ (s' : Server) (r : Rect), (s'.present env r).fb = s'.fb := by
      intro s' r
      simp only [present]
      split_ifs <;> rfl
    rw [hfb]
    apply repaint (D := fun a => s.wm.damage.clampToScreen.Contains (a % WIDTH) (a / WIDTH)) h.fb
    · exact fun b hb => alike_last h hm hfits hb
    · intro b
      rw [last_writes_cut]
      simp only [hclip]

/-! ## Every command damages what it changes -/

/-- A step that keeps the framebuffer and damages each point whose picture it changes. -/
theorem Shows.step {s₀ s s' : Server} (h : Shows s₀ s) (hfb : s'.fb = s.fb)
    (hstep : ∀ px py, px < WIDTH → py < HEIGHT → ¬s'.wm.damage.Contains px py →
      ¬s.wm.damage.Contains px py ∧ (AlikeAt s₀ s px py → AlikeAt s₀ s' px py)) :
    Shows s₀ s' where
  wm := h.wm
  fits := h.fits
  fb := by
    rw [hfb]
    exact h.fb
  alike px py hx hy hout :=
    (hstep px py hx hy hout).2 (h.alike px py hx hy (hstep px py hx hy hout).1)

theorem shown_of_same {s s' : Server} (h : Shown s) (hroot : s'.root = s.root) (hfb : s'.fb = s.fb)
    (hwindows : s'.wm.windows = s.wm.windows) (hz : s'.wm.nextZ = s.wm.nextZ)
    (hdamage : s'.wm.damage = s.wm.damage) : Shown s' where
  wm := Wm.inv_change h.wm (Wm.Change.nothing hwindows hz.ge hdamage : Wm.Change s.wm s'.wm 0 0)
  root := by
    rw [hroot]
    exact h.root
  shows := by
    obtain ⟨s₀, hs₀⟩ := h.shows
    refine ⟨s₀, hs₀.step hfb fun px py hx hy hout => ?_⟩
    rw [hdamage] at hout
    refine ⟨hout, fun ha => ⟨by rw [hroot]; exact ha.root, fun k => ?_⟩⟩
    rw [Wm.Holds, hwindows]
    exact ha.windows k

/-- What an operation on a window changes, it damages. -/
theorem sameAt_change {m₀ m m' : Wm} {owner : ℕ} {id : UInt8} (hc : Wm.Change m m' owner id)
    {px py : ℕ} (hx : px < WIDTH) (hy : py < HEIGHT) (hout : ¬m'.damage.Contains px py) :
    ¬m.damage.Contains px py ∧ (m₀.SameAt m px py → m₀.SameAt m' px py) := by
  -- a slot that holds a window elsewhere, before and after
  have hslot : ∀ (i : Fin MAX_WINDOWS) (w : Window), m'.windows = Function.update m.windows i w →
      ¬m.Holds px py i → ¬w.rect.Contains px py → m₀.SameAt m px py → m₀.SameAt m' px py := by
    intro i w hwindows hbefore hafter hsame k
    by_cases hk : k = i
    · subst hk
      right
      constructor
      · rintro ⟨-, hin⟩
        rw [hwindows, Function.update_self] at hin
        exact hafter hin
      · rwa [← hsame.holds_iff]
    · rw [Wm.Holds, hwindows, Function.update_of_ne hk]
      exact hsame k
  cases hc with
  | nothing hwindows hz hdamage =>
    rw [hdamage] at hout
    refine ⟨hout, fun hsame k => ?_⟩
    rw [Wm.Holds, hwindows]
    exact hsame k
  | opened i w hfind hfree hwindows hused howner hid hz hnext hcovers =>
    refine ⟨fun hd => hout (hcovers px py hx hy (Or.inl hd)), hslot i w hwindows ?_ ?_⟩
    · rintro ⟨hu, -⟩
      rw [hfree] at hu
      cases hu
    · exact fun hin => hout (hcovers px py hx hy (Or.inr hin))
  | changed i w hfind hwindows hused howner hid hz hbefore hafter =>
    refine ⟨fun hd => hout (hafter px py hx hy (Or.inl hd)), hslot i w hwindows ?_ ?_⟩
    · exact fun hin => hout (hbefore px py hx hy (Or.inr hin.2))
    · exact fun hin => hout (hafter px py hx hy (Or.inr hin))

theorem shown_change {s : Server} {m' : Wm} {owner : ℕ} {id : UInt8} (h : Shown s)
    (hc : Wm.Change s.wm m' owner id) : Shown { s with wm := m' } where
  wm := Wm.inv_change h.wm hc
  root := h.root
  shows := by
    obtain ⟨s₀, hs₀⟩ := h.shows
    refine ⟨s₀, hs₀.step rfl fun px py hx hy hout => ?_⟩
    obtain ⟨hbefore, hsame⟩ := sameAt_change hc hx hy hout
    exact ⟨hbefore, fun ha => ⟨ha.root, hsame ha.windows⟩⟩

/-- A `CLEAR` damages the whole screen. -/
theorem shown_clear {s : Server} (h : Shown s) {bytes : List UInt8} {color : UInt32}
    (hlen : bytes.length = 5) (hb : Encodes bytes (.fill 0 0 WIDTH HEIGHT color)) :
    Shown { s with root := rootAppend [] bytes, wm := s.wm.dirtyAll } where
  wm := ⟨h.wm.names, h.wm.distinct, h.wm.below⟩
  root := by
    right
    have happend : rootAppend [] bytes = bytes := by
      simp [rootAppend, hlen, ROOT_CAPACITY]
    rw [happend]
    exact ⟨color, [], hb.all⟩
  shows := by
    obtain ⟨s₀, hs₀⟩ := h.shows
    refine ⟨s₀, hs₀.step rfl fun px py hx hy hout => ?_⟩
    exact absurd ((Rect.contains_screen px py).mpr ⟨hx, hy⟩) hout

/-- A retained command damages what it reaches. -/
theorem shown_draw {s : Server} (h : Shown s) {bytes : List UInt8} {damage : Rect} {d : Draw}
    (hne : s.root ≠ []) (hk : s.Keeps bytes.length) (hb : Encodes bytes d)
    (hreach : ∀ px py, d.Reaches px py → damage.Contains px py) :
    Shown { s with root := rootAppend s.root bytes, wm := s.wm.dirty damage } := by
  have happend : rootAppend s.root bytes = s.root ++ bytes := if_neg (Nat.not_lt.mpr hk)
  rw [happend]
  obtain ⟨color, ds, hds⟩ := h.root.resolve_left hne
  constructor
  · exact ⟨h.wm.names, h.wm.distinct, h.wm.below⟩
  · right
    exact ⟨color, ds ++ [d], hds.append hb.all⟩
  · obtain ⟨s₀, hs₀⟩ := h.shows
    refine ⟨s₀, hs₀.step rfl fun px py hx hy hout => ?_⟩
    have hcovers := Wm.dirty_covers s.wm damage px py hx hy
    refine ⟨fun hd => hout (hcovers (Or.inl hd)), fun ha => ⟨?_, ha.windows⟩⟩
    have hnone : last (d.writes wholeScreen) (py * WIDTH + px) = none := by
      obtain ⟨hmod, hdiv⟩ := pixel_of_word py hx
      rw [d.last_writes, if_neg]
      rw [hmod, hdiv]
      exact fun hd => hout (hcovers (Or.inr (hreach px py hd.2)))
    have hold := ha.root
    rw [rootPaint_of_encodes hds] at hold
    rw [rootPaint_of_encodes (hds.append hb.all), List.flatMap_append, last_append,
      List.flatMap_singleton, hnone, Option.none_or, hold]

/-- A compose shows the picture. -/
theorem shown_compose {s : Server} (h : Shown s) (hfits : s.wm.Fits wholeScreen) (env : Env) :
    Shown (s.compose env) := by
  have hsame : (s.compose env).root = s.root ∧ (s.compose env).wm.nextZ = s.wm.nextZ := by
    simp only [compose]
    split_ifs
    · exact ⟨rfl, rfl⟩
    · simp only [present]
      split_ifs <;> exact ⟨rfl, rfl⟩
  have hwindows := compose_windows env s
  obtain ⟨s₀, hs₀⟩ := h.shows
  have hfb := fb_compose hs₀ h.wm hfits env
  constructor
  · exact ⟨hwindows ▸ h.wm.names, hwindows ▸ h.wm.distinct,
      by rw [hwindows, hsame.2]; exact h.wm.below⟩
  · rw [hsame.1]
    exact h.root
  · refine ⟨s, h.wm, hfits, fun a => ?_, fun px py _ _ _ => ⟨by rw [hsame.1], fun k => ?_⟩⟩
    · rw [hfb a]
      cases last (s.writes wholeScreen) a <;> rfl
    · left
      rw [hwindows]

/-- A tap changes nothing on the screen. -/
theorem shown_routeTap {s : Server} (h : Shown s) (env : Env) (x y : ℕ) :
    Shown (s.routeTap env x y) := by
  rw [routeTap]
  cases s.wm.hit x y with
  | none => exact shown_of_same h rfl rfl rfl rfl rfl
  | some r =>
    obtain ⟨owner, id, rx, ry⟩ := r
    simp only
    cases s.slot owner with
    | none => exact shown_of_same h rfl rfl rfl rfl rfl
    | some slot =>
      simp only
      split_ifs <;> exact shown_of_same h rfl rfl rfl rfl rfl

/-- Every command that is allowed keeps the invariant. -/
theorem shown_perform {s : Server} {sender i len : ℕ} {buf : List UInt8} {req : Request}
    (h : Shown s) (hreq : ((s.request sender i).run buf).2 = some (some (req, len)))
    (hallowed : s.Allowed (req, len)) (env : Env) : Shown (s.perform env sender req) := by
  cases req with
  | clear bytes =>
    obtain ⟨hlen, color, hb⟩ := request_clear hreq
    exact shown_clear h hlen hb
  | draw bytes damage =>
    obtain ⟨hne, hk⟩ := hallowed
    obtain ⟨rfl, d, hb, hreach⟩ := request_draw hreq hk
    exact shown_draw h hne hk hb hreach
  | present => exact shown_compose h hallowed env
  | input x y down =>
    rw [perform]
    split_ifs
    · exact shown_routeTap h env x y
    · exact h
  | create id r bg title => exact shown_change h (s.wm.create_change sender id r bg title)
  | raise id => exact shown_change h (s.wm.raise_change sender id)
  | move id x y => exact shown_change h (s.wm.move_change sender id x y)
  | push id cmd => exact shown_change h (s.wm.push_change sender id cmd)
  | reset id => exact shown_change h (s.wm.reset_change sender id)
  | client pids => exact shown_of_same h rfl rfl rfl rfl rfl
  | stats => exact h
  | shutdown => exact h

/-! ## Runs -/

/-- A message from a process, and what the buffer held before it. -/
structure Delivery where
  sender : ℕ
  bytes : UpTo BUFFER UInt8
  old : Vector UInt8 BUFFER

namespace Delivery

def size (m : Delivery) : ℕ := m.bytes.val.length

def buf (m : Delivery) : List UInt8 := received m.old m.bytes

/-- In `s`, the loop over the message comes to index `i` with the server at `s'`. -/
def Comes (env : Env) (m : Delivery) (s s' : Server) (i : ℕ) : Prop :=
  Server.Comes env m.sender m.size m.buf s s' i

/-- The command at `i`, in `s`. -/
def command (m : Delivery) (s : Server) (i : ℕ) : Option (Option (Request × ℕ)) :=
  ((s.request m.sender i).run m.buf).2

/-- Every command of the message that the loop comes to is allowed. -/
def Allowed (env : Env) (m : Delivery) (s : Server) : Prop :=
  ∀ s' i r, m.Comes env s s' i → i < m.size → m.command s' i = some (some r) → s'.Allowed r

end Delivery

/-- The server after any messages, all commands of which are allowed. -/
inductive Visits (env : Env) (fb : ℕ → UInt32) : Server → Prop
  | start : Visits env fb (start env fb)
  | message {s : Server} (m : Delivery) (h : Visits env fb s) (hallowed : m.Allowed env s)
      (hdone : (serve env m.sender s m.bytes m.old).2.stop = .done) :
      Visits env fb (serve env m.sender s m.bytes m.old).2.server

theorem shown_start (env : Env) (fb : ℕ → UInt32) : Shown (start env fb) := by
  have hwm : (start env fb).wm = Wm.new := present_wm _ _ _
  have hroot : (start env fb).root = [] := by
    simp only [start, present]
    split_ifs <;> rfl
  have hunused : ∀ k, ¬(Wm.new.windows k).used := by simp [Wm.new, Window.BLANK]
  constructor
  · rw [hwm]
    exact Wm.inv_new
  · exact Or.inl hroot
  · refine ⟨start env fb, by rw [hwm]; exact Wm.inv_new, ?_, fun a => ?_, fun px py _ _ _ => ?_⟩
    · rw [hwm]
      exact fun k hk => absurd hk (hunused k)
    · have hnothing : (start env fb).writes wholeScreen = [] := by
        rw [writes, hroot, hwm]
        rfl
      rw [hnothing]
      rfl
    · exact ⟨rfl, fun k => Or.inl rfl⟩

/-- The loop over a message keeps the invariant. -/
theorem shown_comes {env : Env} {m : Delivery} {s s' : Server} {i : ℕ} (h : Shown s)
    (hallowed : m.Allowed env s) (hcomes : m.Comes env s s' i) : Shown s' := by
  have hall : ∀ b : Server × ℕ,
      Relation.ReflTransGen (Leads env m.sender m.size m.buf) (s, 0) b → Shown b.1 := by
    intro b hb
    induction hb with
    | refl => exact h
    | tail hcomes hleads ih =>
      obtain ⟨req, len, hrun, -, hnext, -⟩ := turn_eq_next.mp hleads.2
      rw [hnext]
      exact shown_perform ih hrun (hallowed _ _ _ hcomes hleads.1 hrun) env
  exact hall _ hcomes

theorem shown_visits {env : Env} {fb : ℕ → UInt32} {s : Server} (h : Visits env fb s) : Shown s := by
  induction h with
  | start => exact shown_start env fb
  | message m _ hallowed _ ih =>
    obtain ⟨j, hcomes⟩ := serve_comes env m.sender _ m.bytes m.old
    exact shown_comes ih hallowed hcomes

/-- A `CLEAR` leaves nothing of what was there before. -/
theorem last_of_cleared {s : Server} (h : Cleared s.root) (hne : s.root ≠ []) {px py : ℕ}
    (hx : px < WIDTH) (hy : py < HEIGHT) :
    (last (s.writes wholeScreen) (py * WIDTH + px)).isSome := by
  obtain ⟨color, ds, hds⟩ := h.resolve_left hne
  obtain ⟨hmod, hdiv⟩ := pixel_of_word py hx
  have hclear : last ((Draw.fill 0 0 WIDTH HEIGHT color).writes wholeScreen) (py * WIDTH + px) =
      some color := by
    rw [Draw.last_writes, hmod, hdiv, if_pos ⟨contains_wholeScreen.mpr ⟨hx, hy⟩, _,
      List.mem_singleton_self _, (Rect.contains_screen px py).mpr ⟨hx, hy⟩⟩]
    rfl
  rw [writes, last_append, rootPaint_of_encodes hds, List.flatMap_cons, last_append, hclear]
  simp

/-- After every compose of every run the framebuffer is, word for word, what painting the
whole background and all windows over the whole screen gives: from the framebuffer before
the compose, and, once there was a `CLEAR`, from any framebuffer. -/
theorem compose_shows {env : Env} {fb : ℕ → UInt32} {s : Server} (h : Visits env fb s)
    {m : Delivery} (hallowed : m.Allowed env s) {s' : Server} {i len : ℕ}
    (hcomes : m.Comes env s s' i) (hi : i < m.size)
    (hpresent : m.command s' i = some (some (.present, len))) :
    (∀ a, (s'.compose env).fb a = apply (s'.writes wholeScreen) s'.fb a) ∧
      (s'.root ≠ [] → ∀ fb' px py, px < WIDTH → py < HEIGHT →
        (s'.compose env).fb (py * WIDTH + px) =
          apply (s'.writes wholeScreen) fb' (py * WIDTH + px)) := by
  have hshown := shown_comes (shown_visits h) hallowed hcomes
  have hfits : s'.wm.Fits wholeScreen := hallowed s' i _ hcomes hi hpresent
  obtain ⟨s₀, hs₀⟩ := hshown.shows
  have hfb := fb_compose hs₀ hshown.wm hfits env
  constructor
  · intro a
    rw [hfb, apply_eq]
  · intro hne fb' px py hx hy
    obtain ⟨c, hc⟩ := Option.isSome_iff_exists.mp (last_of_cleared hshown.root hne hx hy)
    rw [hfb, apply_eq, hc]
    rfl

/-- A `CLEAR` and a `PRESENT` from the kernel. -/
def firstFrame : Delivery where
  sender := KERNEL
  bytes := UpTo.take BUFFER [OP_CLEAR, 0x22, 0x11, 0x00, 0xff, OP_PRESENT]
  old := Vector.replicate BUFFER 0

theorem firstFrame_length : firstFrame.buf.length = BUFFER := length_received _

theorem firstFrame_clear (s : Server) :
    firstFrame.command s 0 = some (some (.clear [OP_CLEAR, 0x22, 0x11, 0x00, 0xff], 5)) := by
  have hop : firstFrame.buf[0]? = some OP_CLEAR := rfl
  have ha : arm firstFrame.sender OP_CLEAR = some .clear := by decide
  have hbound : 0 + 5 ≤ firstFrame.buf.length := by
    rw [firstFrame_length]
    decide
  rw [Delivery.command, request_of_parse hop ha, run_clear hbound]
  rfl

theorem firstFrame_present (s : Server) : firstFrame.command s 5 = some (some (.present, 1)) := by
  have hop : firstFrame.buf[5]? = some OP_PRESENT := rfl
  have ha : arm firstFrame.sender OP_PRESENT = some .present := by decide
  rw [Delivery.command, request_of_parse hop ha]
  rfl

/-- The server after that `CLEAR`. -/
def firstCleared : Server :=
  (start responsive fun _ => 0).perform responsive KERNEL (.clear [OP_CLEAR, 0x22, 0x11, 0x00, 0xff])

theorem firstFrame_leads :
    Leads responsive KERNEL firstFrame.size firstFrame.buf (start responsive fun _ => 0, 0)
      (firstCleared, 5) :=
  ⟨by decide, turn_eq_next.mpr ⟨_, _, firstFrame_clear _, by simp, rfl, rfl⟩⟩

theorem firstFrame_fits : firstCleared.wm.Fits wholeScreen := by
  have hunused : ∀ k, ¬(firstCleared.wm.windows k).used := by
    simp [firstCleared, perform, Wm.dirtyAll, start, Wm.new, Window.BLANK]
  exact fun k hk => absurd hk (hunused k)

theorem firstFrame_allowed : firstFrame.Allowed responsive (start responsive fun _ => 0) := by
  intro s' i r hcomes hi hr
  rcases Relation.ReflTransGen.cases_head hcomes with heq | ⟨⟨t, k⟩, hleads, hrest⟩
  · cases heq
    rw [firstFrame_clear] at hr
    cases hr
    trivial
  · obtain ⟨req, len, hrun, -, ht, hk⟩ := turn_eq_next.mp hleads.2
    have hreq := (firstFrame_clear _).symm.trans hrun
    cases hreq
    simp only at ht hk
    subst ht hk
    rcases Relation.ReflTransGen.cases_head hrest with heq | ⟨b, hleads', hrest'⟩
    · cases heq
      rw [firstFrame_present] at hr
      cases hr
      exact firstFrame_fits
    · -- the loop is past the message
      have hadv := hleads'.advances
      have hle := comes_le hrest'
      have hsize : firstFrame.size = 6 := rfl
      simp only at hadv hle
      omega

/-- After the first frame a pixel has the colour of the `CLEAR`. -/
theorem compose_shows_firstFrame :
    (firstCleared.compose responsive).fb (5 * WIDTH + 7) =
      apply (firstCleared.writes wholeScreen) (fun _ => 3) (5 * WIDTH + 7) :=
  (compose_shows Visits.start firstFrame_allowed (.single firstFrame_leads) (by decide)
    (firstFrame_present _)).2 (by decide) (fun _ => 3) 7 5 (by decide) (by decide)

end Server

end JungeyOs.Display
