import JungeyOs.Syscall.Dispatch
import Mathlib.Algebra.Order.BigOperators.Group.List

/-!
# What a process without capabilities reaches

Two states of the kernel that differ in the channels, in the models and in the jobs of other processes,
and a call of a process whose capability table is empty. No capability leads to a model or to a job:
a model is opened by its name and used by its id, and a job by its id; so every model is one of others,
and a job is the caller's own if it has submitted it.

Results:
* `handle_put`: the calls that do not look at these objects.
* `isolated_iff`: the call does the same in both states, and leaves the objects alone, exactly when it
  is none of those that get to an object by its name or number.
* `reached_by_id`: a call that gets to a model by its id.
-/

namespace JungeyOs.Syscall

open Mm (PAGE_SIZE)
open ModelStore (Store)
open Receive (EBADCAP)
open Delivery (EFAULT)
open Tensor (Job)

/-! ## The objects -/

/-- The channels, the models and the jobs, and the counters of their ids. -/
structure Objects where
  chans : Ipc.Channels
  store : Store
  jobs : List Job
  nextJob : ℕ

namespace Objects

/-- What holds of the ids from boot on. -/
structure Valid (o : Objects) : Prop where
  modelIds : (o.store.models.map ModelStore.Model.id).Nodup
  models : ∀ m ∈ o.store.models, 0 < m.id ∧ m.id < o.store.nextId
  jobIds : (o.jobs.map Job.id).Nodup
  jobs : ∀ j ∈ o.jobs, 0 < j.id ∧ j.id < o.nextJob

/-- The jobs that the process has submitted. -/
def own (o : Objects) (pid : ℕ) : List Job := o.jobs.filter fun j => j.owner = pid

def others (o : Objects) (pid : ℕ) : List Job := o.jobs.filter fun j => j.owner ≠ pid

/-- The objects of others are as they were. -/
structure Untouched (pid : ℕ) (o o' : Objects) : Prop where
  chans : o'.chans = o.chans
  store : o'.store = o.store
  jobs : o'.others pid = o.others pid

end Objects

namespace Kernel

def objects (k : Kernel) : Objects := ⟨k.chans, k.store, k.dev.jobs, k.dev.nextId⟩

/-- The state with other objects. -/
def put (k : Kernel) (o : Objects) : Kernel :=
  { k with chans := o.chans, store := o.store
           dev := { k.dev with jobs := o.jobs, nextId := o.nextJob } }

/-- What is left of the state without them: the memory, the process, the clocks. -/
def rest (k : Kernel) : Kernel := k.put ⟨[], Store.boot, [], 1⟩

end Kernel

/-! ## The claim -/

/-- Whatever the objects of others are, the call gives the same result and has the same effect on
everything else, and leaves them as they are. -/
def Isolated (k : Kernel) (pid : ℕ) (r : Regs) : Prop :=
  ∀ o o' : Objects, o.Valid → o'.Valid → o.own pid = k.objects.own pid →
    o'.own pid = k.objects.own pid →
      (dispatch (k.put o) (some pid) r).1 = (dispatch (k.put o') (some pid) r).1 ∧
      (dispatch (k.put o) (some pid) r).2.rest = (dispatch (k.put o') (some pid) r).2.rest ∧
      o.Untouched pid (dispatch (k.put o) (some pid) r).2.objects

/-- The call gets to an object by its name or number. `SYS_MODEL_OPEN`: the name can be read and is
that of a published file, which can be read too. `SYS_MODEL_MAP` and `SYS_MODEL_INFO`: the number is
one that a model can have, and the address is aligned. `SYS_TENSOR_SUBMIT`: the number of segments is
allowed, the device is cool enough, and the caller's own jobs leave enough time.
`SYS_TENSOR_WAIT` and `SYS_TENSOR_STAT`: the number is one that a job of another process can have. -/
def Ambient (k : Kernel) (pid : ℕ) : Call → Prop
  | .modelOpen ptr len => len ≤ 64 ∧ ∃ bytes name p hash,
      k.withSpace pid (fun space => Mm.copyFromUser space k.mem ptr len) = some (.ok bytes) ∧
      Jlfs.fromUtf8 bytes = some name ∧
      k.published.find? (fun p => p.name = name) = some p ∧
      ModelStore.hashFile k.read p.startSector p.size = some hash
  | .modelMap id uva => uva % PAGE_SIZE = 0 ∧ 0 < id
  | .modelInfo id _ => 0 < id
  | .tensorSubmit qos segments deadlineUs => 0 < segments ∧ segments ≤ 100000 ∧
      (Tensor.temperatureLocked k.dev k.nowUs).tempMilliC < Tensor.thermalLimit (qosOf qos) ∧
      (deadlineUs ≠ 0 → segments * k.dev.usPerSegment +
        Tensor.ahead (k.objects.own pid) (qosOf qos) k.dev.usPerSegment ≤ deadlineUs)
  | .tensorWait id _ => 0 < id ∧ ∀ j ∈ k.objects.own pid, j.id ≠ id
  | .tensorStat id _ => 0 < id ∧ ∀ j ∈ k.objects.own pid, j.id ≠ id
  | _ => False

/-! ## Calls that do not look at the objects -/

section

variable {k : Kernel} {pid : ℕ} {o o' : Objects} {call : Call}

@[simp] theorem Kernel.objects_put (k : Kernel) (o : Objects) : (k.put o).objects = o := rfl

@[simp] theorem Kernel.rest_put (k : Kernel) (o : Objects) : (k.put o).rest = k.rest := rfl

@[simp] theorem Kernel.put_put (k : Kernel) (o o' : Objects) : (k.put o).put o' = k.put o' := rfl

theorem Objects.Untouched.refl (pid : ℕ) (o : Objects) : o.Untouched pid o := ⟨rfl, rfl, rfl⟩

theorem sysWrite_put (k : Kernel) (pid ptr len : ℕ) (o : Objects) :
    sysWrite (k.put o) pid ptr len =
      ((sysWrite k pid ptr len).1, (sysWrite k pid ptr len).2.put o) := by
  have hspace : (k.put o).withSpace pid (fun space => Mm.copyFromUser space (k.put o).mem ptr len) =
      k.withSpace pid fun space => Mm.copyFromUser space k.mem ptr len := rfl
  unfold sysWrite
  rw [hspace]
  by_cases hlen : Mm.MAX_TRANSFER < len
  · rw [if_pos hlen, if_pos hlen]
  · rw [if_neg hlen, if_neg hlen]
    cases k.withSpace pid fun space => Mm.copyFromUser space k.mem ptr len with
    | none => rfl
    | some copied =>
      cases copied with
      | error e => rfl
      | ok bytes =>
        dsimp only
        cases Jlfs.fromUtf8 bytes with
        | none => rfl
        | some s => rfl

theorem copyOut_put (k : Kernel) (pid out : ℕ) (vals : List ℕ) (o : Objects) :
    copyOut (k.put o) pid out vals =
      ((copyOut k pid out vals).1, (copyOut k pid out vals).2.put o) := by
  have hspace : (k.put o).withSpace pid (fun space =>
      Mm.copyToUser space out (vals.flatMap (Bytes.leList 8)) (k.put o).mem) =
      k.withSpace pid fun space =>
        Mm.copyToUser space out (vals.flatMap (Bytes.leList 8)) k.mem := rfl
  unfold copyOut
  rw [hspace]
  cases k.withSpace pid fun space =>
      Mm.copyToUser space out (vals.flatMap (Bytes.leList 8)) k.mem with
  | none => rfl
  | some copied =>
    obtain ⟨result, mem⟩ := copied
    cases result with
    | error e => rfl
    | ok u => rfl

/-- The call neither looks at the objects nor changes them, as long as the caller's own jobs are those
that they are. -/
def Blind (k : Kernel) (pid : ℕ) (call : Call) : Prop :=
  ∃ (out : Outcome) (k' : Kernel), ∀ o : Objects, o.Valid → o.own pid = k.objects.own pid →
    handle (k.put o) pid call = (out, k'.put o)

theorem Blind.isolated {r : Regs} (h : Blind k pid (.decode r)) : Isolated k pid r := by
  intro o o' hvalid hvalid' hown hown'
  obtain ⟨out, k', hcall⟩ := h
  show (handle (k.put o) pid _).1 = (handle (k.put o') pid _).1 ∧
    (handle (k.put o) pid _).2.rest = (handle (k.put o') pid _).2.rest ∧
    o.Untouched pid (handle (k.put o) pid _).2.objects
  rw [hcall o hvalid hown, hcall o' hvalid' hown']
  exact ⟨rfl, rfl, .refl pid o⟩

/-- With an empty table, the calls that need a capability, and those that need none. -/
theorem blind_of_capless (hempty : k.Capless pid) (hslot : call.takesSlot = true) :
    Blind k pid call :=
  ⟨.ret EBADCAP, k, fun o _ _ => handle_capless (k := k.put o) hempty hslot⟩

/-- A job of another process does not have the id of one of the caller's. -/
theorem lookup_own {id : ℕ} (hvalid : o.Valid) (hid : id = 0 ∨ ∃ j ∈ o.own pid, j.id = id) :
    Dir.lookup Job.id o.jobs id = Dir.lookup Job.id (o.own pid) id := by
  rcases hid with rfl | ⟨j, hj, rfl⟩
  · have hnone : ∀ l : List Job, (∀ j ∈ l, 0 < j.id) → Dir.lookup Job.id l 0 = none :=
      fun l hl => Dir.lookup_eq_none.mpr fun j hj => (hl j hj).ne'
    rw [hnone _ fun j hj => (hvalid.jobs j hj).1,
      hnone (o.own pid) fun j hj => (hvalid.jobs j (List.mem_of_mem_filter hj)).1]
  · have hnodup : ((o.own pid).map Job.id).Nodup :=
      hvalid.jobIds.sublist (List.filter_sublist.map Job.id)
    rw [Dir.lookup_of_mem hvalid.jobIds (List.mem_of_mem_filter hj), Dir.lookup_of_mem hnodup hj]

/-- A job that the caller may name is the same whatever the others have submitted. -/
theorem lookup_put {id : ℕ} (hvalid : o.Valid) (hown : o.own pid = k.objects.own pid)
    (hid : ¬(0 < id ∧ ∀ j ∈ k.objects.own pid, j.id ≠ id)) :
    Dir.lookup Job.id (k.put o).dev.jobs id = Dir.lookup Job.id (k.objects.own pid) id := by
  rw [← hown] at hid ⊢
  refine lookup_own hvalid ?_
  by_contra hne
  push Not at hne
  exact hid ⟨Nat.pos_of_ne_zero hne.1, hne.2⟩

theorem blind_modelOpen {ptr len : ℕ} (h : ¬Ambient k pid (.modelOpen ptr len)) :
    Blind k pid (.modelOpen ptr len) := by
  have hspace : ∀ o, (k.put o).withSpace pid (fun space =>
      Mm.copyFromUser space (k.put o).mem ptr len) =
      k.withSpace pid fun space => Mm.copyFromUser space k.mem ptr len := fun _ => rfl
  refine ⟨(sysModelOpen k pid ptr len).1, k, fun o _ _ => ?_⟩
  show sysModelOpen (k.put o) pid ptr len = _
  unfold sysModelOpen
  rw [hspace]
  by_cases hlen : 64 < len
  · rw [if_pos hlen, if_pos hlen]
  · rw [if_neg hlen, if_neg hlen]
    cases hcopy : k.withSpace pid fun space => Mm.copyFromUser space k.mem ptr len with
    | none => rfl
    | some copied =>
      cases copied with
      | error e => rfl
      | ok bytes =>
        dsimp only
        cases hname : Jlfs.fromUtf8 bytes with
        | none => rfl
        | some name =>
          -- the file is not published, or it cannot be read
          have hfail : ∀ k' : Kernel, k'.published = k.published → k'.read = k.read →
              ∃ e, openByName k' name = .error e := by
            intro k' hpub hread
            unfold openByName
            rw [hpub, hread]
            cases hfind : k.published.find? fun p => p.name = name with
            | none => exact ⟨_, rfl⟩
            | some p =>
              dsimp only
              cases hhash : ModelStore.hashFile k.read p.startSector p.size with
              | none => exact ⟨_, rfl⟩
              | some hash =>
                exact absurd ⟨Nat.not_lt.mp hlen, bytes, name, p, hash, hcopy, hname, hfind, hhash⟩ h
          obtain ⟨e, he⟩ := hfail (k.put o) rfl rfl
          obtain ⟨e', he'⟩ := hfail k rfl rfl
          dsimp only
          rw [he, he']

/-- No model has number 0. -/
theorem model_zero (hvalid : o.Valid) : o.store.model 0 = none :=
  Dir.lookup_eq_none.mpr fun m hm => (hvalid.models m hm).1.ne'

theorem blind_modelMap {id uva : ℕ} (h : ¬Ambient k pid (.modelMap id uva)) :
    Blind k pid (.modelMap id uva) := by
  refine ⟨(if uva % PAGE_SIZE ≠ 0 then .ret Receive.EINVAL else .ret EBADCAP), k,
    fun o hvalid _ => ?_⟩
  show sysModelMap (k.put o) pid id uva = _
  unfold sysModelMap
  by_cases halign : uva % PAGE_SIZE = 0
  · have hzero : id = 0 := Nat.eq_zero_of_not_pos fun hpos => h ⟨halign, hpos⟩
    have hnone : (k.put o).store.model id = none := hzero ▸ model_zero hvalid
    simp [halign, Store.attach, hnone]
  · simp [halign]

theorem blind_modelInfo {id out : ℕ} (h : ¬Ambient k pid (.modelInfo id out)) :
    Blind k pid (.modelInfo id out) := by
  refine ⟨.ret EBADCAP, k, fun o hvalid _ => ?_⟩
  have hzero : id = 0 := Nat.eq_zero_of_not_pos h
  have hnone : (k.put o).store.model id = none := hzero ▸ model_zero hvalid
  show sysModelInfo (k.put o) pid id out = _
  simp [sysModelInfo, Store.stat, hnone]

/-- Only the job that it waits for matters to `sys_tensor_wait`. -/
theorem sysTensorWait_put {id timeout : ℕ}
    (h : Dir.lookup Job.id o.jobs id = Dir.lookup Job.id k.dev.jobs id) :
    sysTensorWait (k.put o) id timeout =
      ((sysTensorWait k id timeout).1, (sysTensorWait k id timeout).2.put o) := by
  have hfinished : Tensor.Wait.finishedOrPrepare (k.put o).dev id (k.put o).state =
      Tensor.Wait.finishedOrPrepare k.dev id k.state := by
    unfold Tensor.Wait.finishedOrPrepare
    rw [show (k.put o).dev.jobs = o.jobs from rfl, h]
    rfl
  unfold sysTensorWait
  rw [hfinished]
  obtain ⟨answer, state⟩ := Tensor.Wait.finishedOrPrepare k.dev id k.state
  cases answer with
  | none =>
    dsimp only
    rw [if_neg (by omega), if_neg (by omega)]
    rfl
  | some finished =>
    cases finished with
    | none =>
      dsimp only
      rw [if_neg (by omega), if_neg (by omega)]
      rfl
    | some done => cases done <;> rfl

theorem blind_tensorWait {id timeout : ℕ} (h : ¬Ambient k pid (.tensorWait id timeout)) :
    Blind k pid (.tensorWait id timeout) := by
  -- the state that has the caller's own jobs only
  let k₀ := k.put { k.objects with jobs := k.objects.own pid }
  refine ⟨(sysTensorWait k₀ id timeout).1, (sysTensorWait k₀ id timeout).2, fun o hvalid hown => ?_⟩
  have hlookup : Dir.lookup Job.id o.jobs id = Dir.lookup Job.id k₀.dev.jobs id :=
    lookup_put hvalid hown h
  exact sysTensorWait_put (k := k₀) hlookup

theorem blind_tensorStat {id out : ℕ} (h : ¬Ambient k pid (.tensorStat id out)) :
    Blind k pid (.tensorStat id out) := by
  have hstat : ∀ o : Objects, o.Valid → o.own pid = k.objects.own pid →
      jobStat (k.put o).dev (k.put o).nowUs id =
        jobStat { k.dev with jobs := k.objects.own pid } k.nowUs id := by
    intro o hvalid hown
    unfold jobStat
    rw [lookup_put hvalid hown h]
    rfl
  cases hs : jobStat { k.dev with jobs := k.objects.own pid } k.nowUs id with
  | none =>
    refine ⟨.ret EBADCAP, k, fun o hvalid hown => ?_⟩
    show sysTensorStat (k.put o) pid id out = _
    rw [sysTensorStat, hstat o hvalid hown, hs]
  | some vals =>
    refine ⟨(copyOut k pid out vals).1, (copyOut k pid out vals).2, fun o hvalid hown => ?_⟩
    show sysTensorStat (k.put o) pid id out = _
    rw [sysTensorStat, hstat o hvalid hown, hs]
    exact copyOut_put k pid out vals o

/-! ## Jobs that are refused -/

theorem temperatureLocked_put (k : Kernel) (o : Objects) (now : ℕ) :
    Tensor.temperatureLocked (k.put o).dev now =
      { Tensor.temperatureLocked k.dev now with jobs := o.jobs, nextId := o.nextJob } := by
  unfold Tensor.temperatureLocked Kernel.put
  dsimp only
  split_ifs <;> rfl

/-- The jobs of others only add to what is ahead of a new one. -/
theorem ahead_own_le (o : Objects) (pid : ℕ) (qos : Tensor.Qos) (cost : ℕ) :
    Tensor.ahead (o.own pid) qos cost ≤ Tensor.ahead o.jobs qos cost :=
  ((List.filter_sublist.filter _).map _).sum_le_sum fun _ _ => Nat.zero_le _

/-- A job that is refused leaves a record among the caller's own. -/
def Refused (k : Kernel) (pid : ℕ) (call : Call) : Prop :=
  ∃ (e : ℤ) (k' : Kernel), ∀ o : Objects, o.own pid = k.objects.own pid →
    ∃ j : Job, j.owner = pid ∧ handle (k.put o) pid call =
      (.ret e, k'.put { o with jobs := o.jobs ++ [j], nextJob := o.nextJob + 1 })

theorem Refused.isolated {r : Regs} (h : Refused k pid (.decode r)) : Isolated k pid r := by
  intro o o' _ _ hown hown'
  obtain ⟨e, k', hcall⟩ := h
  obtain ⟨j, hj, heq⟩ := hcall o hown
  obtain ⟨j', -, heq'⟩ := hcall o' hown'
  show (handle (k.put o) pid _).1 = (handle (k.put o') pid _).1 ∧
    (handle (k.put o) pid _).2.rest = (handle (k.put o') pid _).2.rest ∧
    o.Untouched pid (handle (k.put o) pid _).2.objects
  rw [heq, heq']
  refine ⟨rfl, rfl, rfl, rfl, ?_⟩
  show (o.jobs ++ [j]).filter _ = o.jobs.filter _
  simp [List.filter_append, hj]

theorem refused_tensorSubmit {qos segments deadlineUs : ℕ}
    (hsegments : ¬(segments = 0 ∨ 100000 < segments))
    (h : ¬Ambient k pid (.tensorSubmit qos segments deadlineUs)) :
    Refused k pid (.tensorSubmit qos segments deadlineUs) := by
  have hcall : ∀ o, handle (k.put o) pid (.tensorSubmit qos segments deadlineUs) =
      sysTensorSubmit (k.put o) pid qos segments deadlineUs := fun _ => rfl
  by_cases hhot : Tensor.thermalLimit (qosOf qos) ≤ (Tensor.temperatureLocked k.dev k.nowUs).tempMilliC
  · refine ⟨EHOT, { k with dev := Tensor.temperatureLocked k.dev k.nowUs }, fun o hown =>
      ⟨Tensor.newJob o.nextJob pid (qosOf qos) segments
        (if deadlineUs = 0 then none else some deadlineUs) k.nowUs none .refused
        "no thermal headroom", rfl, ?_⟩⟩
    rw [hcall, sysTensorSubmit, if_neg hsegments]
    unfold Tensor.submitWithBudget
    dsimp only
    rw [temperatureLocked_put]
    dsimp only
    rw [show (k.put o).nowUs = k.nowUs from rfl, if_pos hhot]
    rfl
  · have hlate : deadlineUs ≠ 0 ∧ deadlineUs < segments * k.dev.usPerSegment +
        Tensor.ahead (k.objects.own pid) (qosOf qos) k.dev.usPerSegment := by
      by_contra hne
      refine h ⟨by omega, by omega, Nat.not_le.mp hhot, fun hd => ?_⟩
      exact Nat.not_lt.mp fun hlt => hne ⟨hd, hlt⟩
    obtain ⟨hdeadline, hlate⟩ := hlate
    refine ⟨EDEADLINE, { k with dev := Tensor.temperatureLocked k.dev k.nowUs }, fun o hown =>
      ⟨Tensor.newJob o.nextJob pid (qosOf qos) segments (some deadlineUs) k.nowUs none .refused
        "deadline cannot be met", rfl, ?_⟩⟩
    have hahead := ahead_own_le o pid (qosOf qos) k.dev.usPerSegment
    rw [hown] at hahead
    rw [hcall, sysTensorSubmit, if_neg hsegments]
    unfold Tensor.submitWithBudget
    dsimp only
    rw [temperatureLocked_put, if_neg hdeadline]
    dsimp only
    rw [show (k.put o).nowUs = k.nowUs from rfl, if_neg hhot,
      show (k.put o).dev.usPerSegment = k.dev.usPerSegment from rfl, if_pos (by omega)]
    rfl

/-- A call that gets to no object of others. -/
theorem isolated_of_not_ambient {r : Regs} (hempty : k.Capless pid)
    (h : ¬Ambient k pid (.decode r)) : Isolated k pid r := by
  cases hcall : Call.decode r with
  | exit code => exact Blind.isolated (hcall ▸ ⟨_, (handle k pid (.exit code)).2, fun _ _ _ => rfl⟩)
  | write ptr len =>
    exact Blind.isolated (hcall ▸ ⟨_, _, fun o _ _ => sysWrite_put k pid ptr len o⟩)
  | yield => exact Blind.isolated (hcall ▸ ⟨_, k, fun _ _ _ => rfl⟩)
  | getpid => exact Blind.isolated (hcall ▸ ⟨_, k, fun _ _ _ => rfl⟩)
  | ticks => exact Blind.isolated (hcall ▸ ⟨.ret k.ticks, k, fun _ _ _ => rfl⟩)
  | sleep ticks => exact Blind.isolated (hcall ▸ ⟨_, (handle k pid (.sleep ticks)).2, fun _ _ _ => rfl⟩)
  | unknown => exact Blind.isolated (hcall ▸ ⟨_, k, fun _ _ _ => rfl⟩)
  | send slot ptr len => exact Blind.isolated (hcall ▸ blind_of_capless hempty rfl)
  | recv slot ptr len fromPtr => exact Blind.isolated (hcall ▸ blind_of_capless hempty rfl)
  | mapDevice slot uva => exact Blind.isolated (hcall ▸ blind_of_capless hempty rfl)
  | dmaMap slot uva => exact Blind.isolated (hcall ▸ blind_of_capless hempty rfl)
  | irqWait slot timeout => exact Blind.isolated (hcall ▸ blind_of_capless hempty rfl)
  | modelOpen ptr len =>
    rw [hcall] at h
    exact Blind.isolated (hcall ▸ blind_modelOpen h)
  | modelMap id uva =>
    rw [hcall] at h
    exact Blind.isolated (hcall ▸ blind_modelMap h)
  | modelInfo id out =>
    rw [hcall] at h
    exact Blind.isolated (hcall ▸ blind_modelInfo h)
  | tensorSubmit qos segments deadlineUs =>
    rw [hcall] at h
    by_cases hsegments : segments = 0 ∨ 100000 < segments
    · refine Blind.isolated (hcall ▸ ⟨.ret Receive.EINVAL, k, fun o _ _ => ?_⟩)
      show sysTensorSubmit (k.put o) pid qos segments deadlineUs = _
      rw [sysTensorSubmit, if_pos hsegments]
    · exact Refused.isolated (hcall ▸ refused_tensorSubmit hsegments h)
  | tensorWait id timeout =>
    rw [hcall] at h
    exact Blind.isolated (hcall ▸ blind_tensorWait h)
  | tensorStat id out =>
    rw [hcall] at h
    exact Blind.isolated (hcall ▸ blind_tensorStat h)

/-! ## Calls that tell two states apart -/

/-- Of all objects only the jobs that the caller has submitted. -/
def Kernel.alone (k : Kernel) (pid : ℕ) : Objects :=
  ⟨[], Store.boot, k.objects.own pid, k.dev.nextId⟩

/-- A model of another process. -/
def foreignModel (id : ℕ) : ModelStore.Model := ⟨id, 0, 0, 0, [], [], 1, 0, 0⟩

/-- A job of another process, which has ended. -/
def foreignJob (id pid : ℕ) : Job :=
  { Tensor.newJob id (pid + 1) .interactive 1 none 0 none .done "" with doneSegments := 1 }

theorem valid_alone (hvalid : k.objects.Valid) (pid : ℕ) : (k.alone pid).Valid where
  modelIds := List.nodup_nil
  models := by
    intro m hm
    cases hm
  jobIds := hvalid.jobIds.sublist (List.filter_sublist.map Job.id)
  jobs j hj := hvalid.jobs j (List.mem_of_mem_filter hj)

theorem own_alone (k : Kernel) (pid : ℕ) : (k.alone pid).own pid = k.objects.own pid := by
  show (k.objects.jobs.filter _).filter _ = k.objects.jobs.filter _
  rw [List.filter_filter]
  simp

theorem valid_model {id : ℕ} (hvalid : k.objects.Valid) (hid : 0 < id) :
    { k.alone pid with store := ⟨[foreignModel id], id + 1⟩ : Objects }.Valid where
  modelIds := List.nodup_singleton _
  models := by
    intro m hm
    rw [List.mem_singleton.mp hm]
    exact ⟨hid, Nat.lt_succ_self id⟩
  jobIds := (valid_alone hvalid pid).jobIds
  jobs := (valid_alone hvalid pid).jobs

/-- The state in which another process has submitted a job with this id. -/
def Kernel.withJob (k : Kernel) (pid id : ℕ) : Objects :=
  { k.alone pid with
    jobs := k.objects.own pid ++ [foreignJob id pid], nextJob := max k.dev.nextId (id + 1) }

theorem valid_withJob {id : ℕ} (hvalid : k.objects.Valid)
    (hid : 0 < id ∧ ∀ j ∈ k.objects.own pid, j.id ≠ id) : (k.withJob pid id).Valid where
  modelIds := List.nodup_nil
  models := by
    intro m hm
    cases hm
  jobIds := by
    show ((k.objects.own pid ++ [foreignJob id pid]).map Job.id).Nodup
    rw [List.map_append]
    refine List.nodup_append.mpr ⟨(valid_alone hvalid pid).jobIds, List.nodup_singleton _, ?_⟩
    intro i hi i' hi'
    obtain ⟨j, hj, rfl⟩ := List.mem_map.mp hi
    obtain rfl : i' = id := List.mem_singleton.mp hi'
    exact hid.2 j hj
  jobs := by
    intro j hj
    show 0 < j.id ∧ j.id < max k.dev.nextId (id + 1)
    rcases List.mem_append.mp hj with hj | hj
    · have hlt : 0 < j.id ∧ j.id < k.dev.nextId := (valid_alone hvalid pid).jobs j hj
      omega
    · rw [List.mem_singleton.mp hj]
      show 0 < id ∧ id < max k.dev.nextId (id + 1)
      omega

theorem own_withJob (k : Kernel) (pid id : ℕ) : (k.withJob pid id).own pid = k.objects.own pid := by
  show (k.objects.own pid ++ [foreignJob id pid]).filter _ = _
  rw [List.filter_append, show (k.objects.own pid).filter _ = _ from own_alone k pid]
  simp [foreignJob, Tensor.newJob]

/-- With the job of another process a lookup finds it, and without it nothing. -/
theorem lookup_withJob {id : ℕ} (hvalid : k.objects.Valid)
    (hid : 0 < id ∧ ∀ j ∈ k.objects.own pid, j.id ≠ id) :
    Dir.lookup Job.id (k.alone pid).jobs id = none ∧
      Dir.lookup Job.id (k.withJob pid id).jobs id = some (foreignJob id pid) :=
  ⟨Dir.lookup_eq_none.mpr hid.2,
    Dir.lookup_of_mem (x := foreignJob id pid) (valid_withJob hvalid hid).jobIds
      (List.mem_append_right _ (List.mem_singleton.mpr rfl))⟩

/-- There are two states in which the call does not give the same result. -/
def TellsApart (k : Kernel) (pid : ℕ) (call : Call) : Prop :=
  ∃ o o' : Objects, o.Valid ∧ o'.Valid ∧ o.own pid = k.objects.own pid ∧
    o'.own pid = k.objects.own pid ∧ (handle (k.put o) pid call).1 ≠ (handle (k.put o') pid call).1

theorem TellsApart.not_isolated {r : Regs} (h : TellsApart k pid (.decode r)) : ¬Isolated k pid r := by
  obtain ⟨o, o', hvalid, hvalid', hown, hown', hne⟩ := h
  exact fun hisolated => hne (hisolated o o' hvalid hvalid' hown hown').1

/-- What a copy to the caller returns. -/
theorem copyOut_ne (k : Kernel) (pid out : ℕ) (vals : List ℕ) :
    (copyOut k pid out vals).1 ≠ .ret EBADCAP := by
  unfold copyOut
  cases k.withSpace pid fun space =>
      Mm.copyToUser space out (vals.flatMap (Bytes.leList 8)) k.mem with
  | none =>
    show Outcome.ret EFAULT ≠ .ret EBADCAP
    decide
  | some copied =>
    obtain ⟨result, mem⟩ := copied
    cases result with
    | error e =>
      show Outcome.ret EFAULT ≠ .ret EBADCAP
      decide
    | ok u =>
      show Outcome.ret 0 ≠ .ret EBADCAP
      decide

/-- A model that is opened for the first time gets the next number. -/
theorem tells_modelOpen {ptr len : ℕ} (hvalid : k.objects.Valid)
    (h : Ambient k pid (.modelOpen ptr len)) : TellsApart k pid (.modelOpen ptr len) := by
  obtain ⟨hlen, bytes, name, p, hash, hcopy, hname, hfind, hhash⟩ := h
  have hopened : ∀ n, (handle (k.put { k.alone pid with store := ⟨[], n⟩ }) pid
      (.modelOpen ptr len)).1 = .ret n := by
    intro n
    let k' := k.put { k.alone pid with store := ⟨[], n⟩ }
    have hopen : openByName k' name = .ok (Store.enter ⟨[], n⟩ hash p.startSector p.size) := by
      rw [openByName, show k'.published.find? _ = some p from hfind]
      dsimp only
      rw [show ModelStore.hashFile k'.read _ _ = some hash from hhash]
      rfl
    show (sysModelOpen k' pid ptr len).1 = _
    rw [sysModelOpen, if_neg (Nat.not_lt.mpr hlen), show k'.withSpace pid (fun space =>
      Mm.copyFromUser space k'.mem ptr len) = some (.ok bytes) from hcopy]
    dsimp only
    rw [hname]
    dsimp only
    rw [hopen]
    rfl
  have halone := valid_alone hvalid pid
  have hother : { k.alone pid with store := ⟨[], 2⟩ : Objects }.Valid := by
    refine ⟨List.nodup_nil, fun m hm => ?_, halone.jobIds, halone.jobs⟩
    cases hm
  refine ⟨{ k.alone pid with store := ⟨[], 1⟩ }, _, halone, hother, own_alone k pid, own_alone k pid, ?_⟩
  rw [hopened, hopened]
  decide

/-- A lookup finds the model of another process. -/
theorem model_foreignModel (id : ℕ) :
    Store.model ⟨[foreignModel id], id + 1⟩ id = some (foreignModel id) := by
  simp [Store.model, foreignModel]

theorem tells_modelMap {id uva : ℕ} (hvalid : k.objects.Valid)
    (h : Ambient k pid (.modelMap id uva)) : TellsApart k pid (.modelMap id uva) := by
  obtain ⟨halign, hid⟩ := h
  let k' := k.put { k.alone pid with store := ⟨[foreignModel id], id + 1⟩ }
  refine ⟨k.alone pid, _, valid_alone hvalid pid, valid_model hvalid hid, own_alone k pid,
    own_alone k pid, ?_⟩
  have hnone : (handle (k.put (k.alone pid)) pid (.modelMap id uva)).1 = .ret EBADCAP := by
    show (sysModelMap (k.put (k.alone pid)) pid id uva).1 = _
    rw [sysModelMap, if_neg (not_not.mpr halign)]
    rfl
  have hsome : (handle k' pid (.modelMap id uva)).1 = .ret 0 := by
    show (sysModelMap k' pid id uva).1 = _
    rw [sysModelMap, if_neg (not_not.mpr halign), Store.attach,
      show k'.store.model id = some (foreignModel id) from model_foreignModel id]
    rfl
  rw [hnone, show (handle (k.put _) pid (.modelMap id uva)).1 = .ret 0 from hsome]
  decide

theorem tells_modelInfo {id out : ℕ} (hvalid : k.objects.Valid)
    (h : Ambient k pid (.modelInfo id out)) : TellsApart k pid (.modelInfo id out) := by
  let k' := k.put { k.alone pid with store := ⟨[foreignModel id], id + 1⟩ }
  refine ⟨_, k.alone pid, valid_model hvalid h, valid_alone hvalid pid, own_alone k pid,
    own_alone k pid, ?_⟩
  have hnone : (handle (k.put (k.alone pid)) pid (.modelInfo id out)).1 = .ret EBADCAP := rfl
  rw [hnone]
  show (sysModelInfo k' pid id out).1 ≠ _
  rw [sysModelInfo, Store.stat,
    show k'.store.model id = some (foreignModel id) from model_foreignModel id]
  exact copyOut_ne _ _ _ _

/-- A job that is admitted gets the next number. -/
theorem tells_tensorSubmit {qos segments deadlineUs : ℕ} (hvalid : k.objects.Valid)
    (h : Ambient k pid (.tensorSubmit qos segments deadlineUs)) :
    TellsApart k pid (.tensorSubmit qos segments deadlineUs) := by
  obtain ⟨hpos, hmax, hcool, htime⟩ := h
  have hadmitted : ∀ n, (handle (k.put { k.alone pid with nextJob := n }) pid
      (.tensorSubmit qos segments deadlineUs)).1 = .ret n := by
    intro n
    show (sysTensorSubmit (k.put { k.alone pid with nextJob := n }) pid qos segments deadlineUs).1 = _
    rw [sysTensorSubmit, if_neg (by omega)]
    unfold Tensor.submitWithBudget
    dsimp only
    rw [temperatureLocked_put]
    dsimp only
    rw [show Kernel.nowUs (k.put _) = k.nowUs from rfl, if_neg (Nat.not_le.mpr hcool)]
    by_cases hdeadline : deadlineUs = 0
    · rw [if_pos hdeadline]
    · have hfits : ¬deadlineUs < segments *
          (k.put { k.alone pid with nextJob := n }).dev.usPerSegment +
            Tensor.ahead (k.alone pid).jobs (qosOf qos)
              (k.put { k.alone pid with nextJob := n }).dev.usPerSegment :=
        Nat.not_lt.mpr (htime hdeadline)
      rw [if_neg hdeadline]
      dsimp only
      rw [if_neg hfits]
  have halone := valid_alone hvalid pid
  have hother : { k.alone pid with nextJob := k.dev.nextId + 1 : Objects }.Valid := by
    refine ⟨halone.modelIds, halone.models, halone.jobIds, fun j hj => ?_⟩
    have hlt : 0 < j.id ∧ j.id < k.dev.nextId := halone.jobs j hj
    show 0 < j.id ∧ j.id < k.dev.nextId + 1
    omega
  refine ⟨{ k.alone pid with nextJob := k.dev.nextId }, _, halone, hother, own_alone k pid,
    own_alone k pid, ?_⟩
  rw [hadmitted, hadmitted]
  simp

theorem tells_tensorWait {id timeout : ℕ} (hvalid : k.objects.Valid)
    (h : Ambient k pid (.tensorWait id timeout)) : TellsApart k pid (.tensorWait id timeout) := by
  obtain ⟨hnone, hsome⟩ := lookup_withJob hvalid h
  refine ⟨k.alone pid, k.withJob pid id, valid_alone hvalid pid, valid_withJob hvalid h,
    own_alone k pid, own_withJob k pid id, ?_⟩
  have hwaits : (handle (k.put (k.alone pid)) pid (.tensorWait id timeout)).1 = .waits := by
    show (sysTensorWait (k.put (k.alone pid)) id timeout).1 = _
    rw [sysTensorWait, Tensor.Wait.finishedOrPrepare,
      show Dir.lookup Job.id (k.put (k.alone pid)).dev.jobs id = none from hnone]
    dsimp only
    rw [if_neg (by omega)]
  have hdone : (handle (k.put (k.withJob pid id)) pid (.tensorWait id timeout)).1 = .ret 1 := by
    show (sysTensorWait (k.put (k.withJob pid id)) id timeout).1 = _
    rw [sysTensorWait, Tensor.Wait.finishedOrPrepare,
      show Dir.lookup Job.id (k.put (k.withJob pid id)).dev.jobs id = _ from hsome]
    rfl
  rw [hwaits, hdone]
  decide

theorem tells_tensorStat {id out : ℕ} (hvalid : k.objects.Valid)
    (h : Ambient k pid (.tensorStat id out)) : TellsApart k pid (.tensorStat id out) := by
  obtain ⟨hnone, hsome⟩ := lookup_withJob hvalid h
  refine ⟨k.withJob pid id, k.alone pid, valid_withJob hvalid h, valid_alone hvalid pid,
    own_withJob k pid id, own_alone k pid, ?_⟩
  have hbad : (handle (k.put (k.alone pid)) pid (.tensorStat id out)).1 = .ret EBADCAP := by
    show (sysTensorStat (k.put (k.alone pid)) pid id out).1 = _
    rw [sysTensorStat, jobStat,
      show Dir.lookup Job.id (k.put (k.alone pid)).dev.jobs id = none from hnone]
    rfl
  rw [hbad]
  show (sysTensorStat (k.put (k.withJob pid id)) pid id out).1 ≠ _
  rw [sysTensorStat, jobStat,
    show Dir.lookup Job.id (k.put (k.withJob pid id)).dev.jobs id = _ from hsome]
  exact copyOut_ne _ _ _ _

/-- A call that gets to an object by its name or number. -/
theorem not_isolated_of_ambient {r : Regs} (hvalid : k.objects.Valid)
    (h : Ambient k pid (.decode r)) : ¬Isolated k pid r := by
  refine TellsApart.not_isolated ?_
  cases hcall : Call.decode r with
  | modelOpen ptr len => exact tells_modelOpen hvalid (hcall ▸ h)
  | modelMap id uva => exact tells_modelMap hvalid (hcall ▸ h)
  | modelInfo id out => exact tells_modelInfo hvalid (hcall ▸ h)
  | tensorSubmit qos segments deadlineUs => exact tells_tensorSubmit hvalid (hcall ▸ h)
  | tensorWait id timeout => exact tells_tensorWait hvalid (hcall ▸ h)
  | tensorStat id out => exact tells_tensorStat hvalid (hcall ▸ h)
  | _ =>
    rw [hcall] at h
    exact h.elim

/-- The call of a process without capabilities does the same whatever the channels, the models and the
jobs of others are, and leaves them alone, exactly when it does not get to one of them by its name or
number. -/
theorem isolated_iff (hvalid : k.objects.Valid) (hempty : k.Capless pid) (r : Regs) :
    Isolated k pid r ↔ ¬Ambient k pid (.decode r) :=
  ⟨fun h hambient => not_isolated_of_ambient hvalid hambient h, isolated_of_not_ambient hempty⟩

end

/-- `SYS_MODEL_MAP` of model 1 at `0x10000`. -/
def demoMap : Regs := ⟨1, 0x10000, 0, 0, 12⟩

theorem valid_demo : demo.objects.Valid := by
  refine ⟨List.nodup_singleton _, fun m hm => ?_, List.nodup_nil, fun j hj => ?_⟩
  · rw [List.mem_singleton.mp hm]
    decide
  · cases hj

theorem isolated_iff_demo : Isolated demo 0 demoMap ↔ ¬Ambient demo 0 (.decode demoMap) :=
  isolated_iff valid_demo (show demo.Capless 0 from rfl) demoMap

/-- A process that has no capability maps a model whose number it has guessed. -/
theorem reached_by_id : demo.objects.Valid ∧ demo.Capless 0 ∧
    (dispatch demo (some 0) demoMap).1 = .ret 8192 ∧
    (dispatch demo (some 0) demoMap).2.store.models.map (·.mappings) = [[⟨0, 0x10000⟩]] ∧
    (dispatch (demo.put (demo.alone 0)) (some 0) demoMap).1 = .ret EBADCAP ∧
    ¬Isolated demo 0 demoMap := by
  have hreached : Ambient demo 0 (.decode demoMap) := by
    show 0x10000 % PAGE_SIZE = 0 ∧ 0 < 1
    decide
  exact ⟨valid_demo, rfl, rfl, rfl, rfl, not_isolated_of_ambient valid_demo hreached⟩

end JungeyOs.Syscall
