import UserLevelMmap.FaultHandler.Content

/-!
# Mapping and unmapping regions

`ul_mmap` and `ul_munmap` (`src/user_level_mmap.cc`) around the handlers: any number of
callers, the mutex `mmap_regions_mu`, the registry `mmap_regions` and one handler thread
for every region. A call of `ul_mmap` is named by an `Id`, which fixes its arguments and
the address that `mmap` returns; the calls of the standard library and of the kernel that
a caller or a handler makes may fail at every place where the source tests for it.

The handler has no way out of its loop but the end of the process: nothing reads `finish`.
-/

namespace UserLevelMmap.FaultHandler

open PageTable

/-- The calls of `ul_mmap`: the region and the `prot` of each. -/
structure Mappings (Id : Type) extends Setup Id where
  prot : Id → BitVec 32
  /-- The top table of a process is not in frame `0`. -/
  root_pos : 0 < root

/-- Why the process ends. -/
inductive Failure where
  | pteditInit
  | mmap
  | userfaultfd
  | api
  | register
  | dup
  | poll
  | eof
  | read
  | unexpectedEvent
  | malloc
  | wake
  deriving DecidableEq, Repr

/-- The text that the source gives to `err`, `printf` or `fprintf`, or the failed assertion. -/
def Failure.message : Failure → String
  | .pteditInit => "Error: Could not initalize PTEditor, did you load the kernel module?\n"
  | .mmap => "mmap"
  | .userfaultfd => "userfaultfd"
  | .api => "ioctl-UFFDIO_API"
  | .register => "ioctl-UFFDIO_REGISTER"
  | .dup => "Failed to duplicate fd\n"
  | .poll => "poll"
  | .eof => "EOF on userfaultfd!\n"
  | .read => "read"
  | .unexpectedEvent => "Unexpected event on userfaultfd\n"
  | .malloc => "given_page != nullptr"
  | .wake => "ioctl-UFFDIO_WAKE"

/-- The thread in `PFhandle_args`. -/
inductive HandlerThread where
  | notStarted
  | running
  | returned
  deriving DecidableEq, Repr

/-- The next step of a caller, with its live locals. -/
inductive CallerPc (Id : Type) where
  | idle
  /-- `ul_mmap`: test `pteditor_init_flag`. -/
  | mmapTest (id : Id)
  /-- `ul_mmap`: `ptedit_init`, and set the flag. -/
  | mmapInit (id : Id)
  /-- `ul_mmap`: `mmap`. -/
  | mmapReserve (id : Id)
  /-- `ul_mmap`: `SYS_userfaultfd`. -/
  | mmapOpen (id : Id)
  /-- `ul_mmap`: `UFFDIO_API`. -/
  | mmapApi (id : Id)
  /-- `ul_mmap`: `UFFDIO_REGISTER`. -/
  | mmapRegister (id : Id)
  /-- `ul_mmap`: `dup`, if there is a file. -/
  | mmapDup (id : Id)
  /-- `ul_mmap`: start the handler. -/
  | mmapStart (id : Id)
  /-- `ul_mmap`: lock the mutex. -/
  | mmapLock (id : Id)
  /-- `ul_mmap`: `mmap_regions[addr] = pfh_args`. -/
  | mmapInsert (id : Id)
  /-- `ul_mmap`: the guard unlocks the mutex. -/
  | mmapUnlock (id : Id)
  | mmapReturned (addr : ℕ)
  /-- `ul_munmap`: lock the mutex. -/
  | munmapLock (addr length : ℕ)
  /-- `ul_munmap`: `mmap_regions.find(addr)`. -/
  | munmapFind (addr length : ℕ)
  /-- `ul_munmap`: `munmap`. -/
  | munmapUnmap (addr length : ℕ) (id : Id)
  /-- `ul_munmap`: `UFFDIO_UNREGISTER`. -/
  | munmapUnregister (addr length : ℕ) (id : Id)
  /-- `ul_munmap`: `finish = true`. -/
  | munmapFinish (addr : ℕ) (id : Id)
  /-- `ul_munmap`: `thread.join()`. -/
  | munmapJoin (addr : ℕ) (id : Id)
  /-- `ul_munmap`: `mmap_regions.erase`. -/
  | munmapErase (addr : ℕ) (id : Id)
  /-- `ul_munmap`: print that the address is not registered. -/
  | munmapPrint (addr : ℕ)
  /-- `ul_munmap`: the guard unlocks the mutex. -/
  | munmapUnlock
  | munmapReturned (result : ℤ)
  deriving DecidableEq, Repr

/-- The state of the process with the callers of `ul_mmap` and `ul_munmap`. -/
structure MmapProcess (Id Caller : Type) where
  process : Process Id
  caller : Caller → CallerPc Id
  /-- The owner of `mmap_regions_mu`. -/
  mutex : Option Caller
  mmapRegions : ℕ → Option Id
  pteditorInitFlag : Bool
  /-- The call of `ul_mmap` has been made. -/
  issued : Id → Bool
  thread : Id → HandlerThread
  finish : Id → Bool
  /-- The region that the kernel has mapped at an address. -/
  vma : ℕ → Option Id
  /-- The region whose userfaultfd reports missing pages at an address. -/
  armed : ℕ → Option Id
  /-- The text with which the process has ended. -/
  exited : Option String

/-- What the callers, the handlers and the kernel do. -/
inductive MmapAction (Id Caller : Type) where
  | callMmap (caller : Caller) (id : Id)
  | callMunmap (caller : Caller) (addr length : ℕ)
  /-- The next step of a caller; a system call in it succeeds, and `munmap` leaves `mem`. -/
  | advance (caller : Caller) (mem : Bytes)
  /-- The system call in the next step of a caller fails. -/
  | callFails (caller : Caller)
  | handler (action : Action Id)
  /-- A handler meets an error that ends the process. -/
  | handlerFails (id : Id) (failure : Failure)

variable {Id Caller : Type}

/-- The map with the addresses of a region added. -/
def Region.addTo (region : Region) (id : Id) (map : ℕ → Option Id) : ℕ → Option Id :=
  fun address => if region.Contains address then some id else map address

/-- The map without the pages of an address range. -/
def removeRange (addr length : ℕ) (map : ℕ → Option Id) : ℕ → Option Id :=
  let last := addr + (length + pageSize - 1) / pageSize * pageSize
  fun address => if addr ≤ address ∧ address < last then none else map address

/-- Where the source tests a call of `ul_mmap` for its failure. -/
def CallerPc.failure (mappings : Mappings Id) : CallerPc Id → Option Failure
  | .mmapInit _ => some .pteditInit
  | .mmapReserve _ => some .mmap
  | .mmapOpen _ => some .userfaultfd
  | .mmapApi _ => some .api
  | .mmapRegister _ => some .register
  | .mmapDup id => if (mappings.region id).fd.isSome then some .dup else none
  | _ => none

/-- The exits of the handler's loop: each of them ends the process. -/
def Pc.mayFail : Pc → Failure → Bool
  | .polling, .poll => true
  | .polling, .eof => true
  | .polling, .read => true
  | .polling, .unexpectedEvent => true
  | .received, .malloc => true
  | .updated, .wake => true
  | _, _ => false

/-- The process before its first call. -/
def initial (mem : Bytes) : MmapProcess Id Caller where
  process := start mem
  caller _ := .idle
  mutex := none
  mmapRegions _ := none
  pteditorInitFlag := false
  issued _ := false
  thread _ := .notStarted
  finish _ := false
  vma _ := none
  armed _ := none
  exited := none

namespace MmapProcess

/-- The kernel and the threads allow the step of a handler, of a fault or of a store. -/
def Allows (system : MmapProcess Id Caller) : Action Id → Prop
  | .fault id address => system.armed address = some id
  | .read id _ => system.thread id = .running
  | .fill id _ => system.thread id = .running
  | .getPfn id => system.thread id = .running
  | .resolve id => system.thread id = .running
  | .update id => system.thread id = .running
  | .wake id => system.thread id = .running
  | .store id address _ => system.vma address = some id

instance [DecidableEq Id] (system : MmapProcess Id Caller) :
    (action : Action Id) → Decidable (system.Allows action)
  | .fault id address => inferInstanceAs (Decidable (system.armed address = some id))
  | .read id _ => inferInstanceAs (Decidable (system.thread id = .running))
  | .fill id _ => inferInstanceAs (Decidable (system.thread id = .running))
  | .getPfn id => inferInstanceAs (Decidable (system.thread id = .running))
  | .resolve id => inferInstanceAs (Decidable (system.thread id = .running))
  | .update id => inferInstanceAs (Decidable (system.thread id = .running))
  | .wake id => inferInstanceAs (Decidable (system.thread id = .running))
  | .store id address _ => inferInstanceAs (Decidable (system.vma address = some id))

/-- The process has ended. -/
def ended (system : MmapProcess Id Caller) : Bool :=
  system.exited.isSome || system.process.aborted

/-- Where a caller goes on after a step that succeeds, or `none` where it waits. -/
def next [DecidableEq Id] (mappings : Mappings Id) (system : MmapProcess Id Caller) :
    CallerPc Id → Option (CallerPc Id)
  | .idle => none
  | .mmapTest id => some (if system.pteditorInitFlag then .mmapReserve id else .mmapInit id)
  | .mmapInit id => some (.mmapReserve id)
  | .mmapReserve id =>
      let region := mappings.region id
      -- The kernel refuses an empty mapping and places others where nothing is mapped.
      if 0 < region.length ∧
          ∀ offset < region.length, system.vma (region.baseAddr + offset) = none then
        some (.mmapOpen id)
      else none
  | .mmapOpen id => some (.mmapApi id)
  | .mmapApi id => some (.mmapRegister id)
  | .mmapRegister id => some (.mmapDup id)
  | .mmapDup id => some (.mmapStart id)
  | .mmapStart id => some (.mmapLock id)
  | .mmapLock id => if system.mutex.isNone then some (.mmapInsert id) else none
  | .mmapInsert id => some (.mmapUnlock id)
  | .mmapUnlock id => some (.mmapReturned (mappings.region id).baseAddr)
  | .mmapReturned _ => some .idle
  | .munmapLock addr length =>
      if system.mutex.isNone then some (.munmapFind addr length) else none
  | .munmapFind addr length =>
      match system.mmapRegions addr with
      | some id => some (.munmapUnmap addr length id)
      | none => some (.munmapPrint addr)
  | .munmapUnmap addr length id => some (.munmapUnregister addr length id)
  | .munmapUnregister addr _ id => some (.munmapFinish addr id)
  | .munmapFinish addr id => some (.munmapJoin addr id)
  | .munmapJoin addr id =>
      if system.thread id = .returned then some (.munmapErase addr id) else none
  | .munmapErase _ _ => some .munmapUnlock
  | .munmapPrint _ => some .munmapUnlock
  | .munmapUnlock => some (.munmapReturned 0)
  | .munmapReturned _ => some .idle

/-- What a step of a caller does to the process; `mem` is the memory that `munmap` leaves. -/
def effect [DecidableEq Id] (mappings : Mappings Id) (caller : Caller) (mem : Bytes)
    (system : MmapProcess Id Caller) : CallerPc Id → MmapProcess Id Caller
  | .mmapInit _ => { system with pteditorInitFlag := true }
  | .mmapReserve id => { system with vma := (mappings.region id).addTo id system.vma }
  | .mmapRegister id => { system with armed := (mappings.region id).addTo id system.armed }
  | .mmapStart id => { system with thread := Function.update system.thread id .running }
  | .mmapLock _ => { system with mutex := some caller }
  | .mmapInsert id =>
      { system with
        mmapRegions := Function.update system.mmapRegions (mappings.region id).baseAddr (some id) }
  | .mmapUnlock _ => { system with mutex := none }
  | .munmapLock _ _ => { system with mutex := some caller }
  | .munmapUnmap addr length _ =>
      { system with
        process := { system.process with mem := mem }
        vma := removeRange addr length system.vma
        armed := removeRange addr length system.armed }
  | .munmapUnregister addr length _ =>
      { system with armed := removeRange addr length system.armed }
  | .munmapFinish _ id => { system with finish := Function.update system.finish id true }
  | .munmapErase addr _ =>
      { system with mmapRegions := Function.update system.mmapRegions addr none }
  | .munmapUnlock => { system with mutex := none }
  | _ => system

variable [DecidableEq Caller]

def goto (system : MmapProcess Id Caller) (caller : Caller) (pc : CallerPc Id) :
    MmapProcess Id Caller :=
  { system with caller := Function.update system.caller caller pc }

variable [DecidableEq Id]

/-- The transition function of the process with its callers. -/
def step (mappings : Mappings Id) : Transition (MmapProcess Id Caller) (MmapAction Id Caller) :=
  fun system action =>
    if system.ended then none
    else
      match action with
      | .callMmap caller id =>
          if system.caller caller = .idle ∧ system.issued id = false then
            some { system.goto caller (.mmapTest id) with
              issued := Function.update system.issued id true }
          else none
      | .callMunmap caller addr length =>
          if system.caller caller = .idle then
            some (system.goto caller (.munmapLock addr length))
          else none
      | .advance caller mem =>
          (system.next mappings (system.caller caller)).map
            (goto (system.effect mappings caller mem (system.caller caller)) caller)
      | .callFails caller =>
          match system.caller caller with
          -- `ul_munmap` ignores the results of its two system calls.
          | .munmapUnmap addr length id =>
              some (system.goto caller (.munmapUnregister addr length id))
          | .munmapUnregister addr _ id => some (system.goto caller (.munmapFinish addr id))
          | pc =>
              (pc.failure mappings).map (fun failure =>
                { system with exited := some failure.message })
      | .handler action =>
          if system.Allows action then
            (FaultHandler.step mappings.toSetup system.process action).map
              (fun process => { system with process := process })
          else none
      | .handlerFails id failure =>
          if system.thread id = .running ∧ (system.process.pc id).mayFail failure then
            some { system with exited := some failure.message }
          else none

/-- Everything a step can do, with its enabling condition. -/
inductive Effect (mappings : Mappings Id) (system : MmapProcess Id Caller) :
    MmapAction Id Caller → MmapProcess Id Caller → Prop where
  | callMmap (caller : Caller) (id : Id) (isIdle : system.caller caller = .idle)
      (fresh : system.issued id = false) :
      Effect mappings system (.callMmap caller id) { system.goto caller (.mmapTest id) with
        issued := Function.update system.issued id true }
  | callMunmap (caller : Caller) (addr length : ℕ) (isIdle : system.caller caller = .idle) :
      Effect mappings system (.callMunmap caller addr length)
        (system.goto caller (.munmapLock addr length))
  | advance (caller : Caller) (mem : Bytes) (pc : CallerPc Id)
      (continues : system.next mappings (system.caller caller) = some pc) :
      Effect mappings system (.advance caller mem)
        ((system.effect mappings caller mem (system.caller caller)).goto caller pc)
  | ignoreUnmap (caller : Caller) (addr length : ℕ) (id : Id)
      (at_pc : system.caller caller = .munmapUnmap addr length id) :
      Effect mappings system (.callFails caller)
        (system.goto caller (.munmapUnregister addr length id))
  | ignoreUnregister (caller : Caller) (addr length : ℕ) (id : Id)
      (at_pc : system.caller caller = .munmapUnregister addr length id) :
      Effect mappings system (.callFails caller) (system.goto caller (.munmapFinish addr id))
  | handler (action : Action Id) (process : Process Id) (allowed : system.Allows action)
      (stepped : FaultHandler.step mappings.toSetup system.process action = some process) :
      Effect mappings system (.handler action) { system with process := process }
  | callExit (caller : Caller) (failure : Failure)
      (fails : (system.caller caller).failure mappings = some failure) :
      Effect mappings system (.callFails caller) { system with exited := some failure.message }
  | handlerExit (id : Id) (failure : Failure) (running : system.thread id = .running)
      (fails : (system.process.pc id).mayFail failure = true) :
      Effect mappings system (.handlerFails id failure)
        { system with exited := some failure.message }

theorem step_effect {mappings : Mappings Id} {system after : MmapProcess Id Caller}
    {action : MmapAction Id Caller} (stepped : system.step mappings action = some after) :
    Effect mappings system action after := by
  unfold step at stepped
  split at stepped
  · contradiction
  · cases action with
    | callMmap caller id =>
        simp only [Option.ite_none_right_eq_some, Option.some.injEq] at stepped
        rcases stepped with ⟨⟨isIdle, fresh⟩, rfl⟩
        exact .callMmap caller id isIdle fresh
    | callMunmap caller addr length =>
        simp only [Option.ite_none_right_eq_some, Option.some.injEq] at stepped
        rcases stepped with ⟨isIdle, rfl⟩
        exact .callMunmap caller addr length isIdle
    | advance caller mem =>
        simp only [Option.map_eq_some_iff] at stepped
        rcases stepped with ⟨pc, continues, rfl⟩
        exact .advance caller mem pc continues
    | callFails caller =>
        simp only at stepped
        split at stepped
        · next addr length id at_pc =>
            rw [Option.some.injEq] at stepped
            subst after
            exact .ignoreUnmap caller addr length id at_pc
        · next addr length id at_pc =>
            rw [Option.some.injEq] at stepped
            subst after
            exact .ignoreUnregister caller addr length id at_pc
        · rw [Option.map_eq_some_iff] at stepped
          rcases stepped with ⟨failure, fails, rfl⟩
          exact .callExit caller failure fails
    | handler action =>
        simp only [Option.ite_none_right_eq_some, Option.map_eq_some_iff] at stepped
        rcases stepped with ⟨allowed, process, stepped, rfl⟩
        exact .handler action process allowed stepped
    | handlerFails id failure =>
        simp only [Option.ite_none_right_eq_some, Option.some.injEq] at stepped
        rcases stepped with ⟨⟨running, fails⟩, rfl⟩
        exact .handlerExit id failure running fails

/-! ## Undisturbed calls -/

variable {mappings : Mappings Id} {origin system after : MmapProcess Id Caller}
  {past : History (MmapProcess Id Caller) (MmapAction Id Caller)} {caller : Caller} {id : Id}
  {pc pc' : CallerPc Id}

/-- The process goes on and can come to this state with the caller at this step. -/
structure Comes (mappings : Mappings Id) (origin system : MmapProcess Id Caller) (caller : Caller)
    (pc : CallerPc Id) : Prop where
  run : ∃ past, Run (step mappings) origin past (system.goto caller pc)
  running : system.ended = false

omit [DecidableEq Id] in
theorem goto_goto : (system.goto caller pc).goto caller pc' = system.goto caller pc' := by
  simp only [goto, Function.update_idem]

theorem next_goto : (system.goto caller pc).next mappings pc' = system.next mappings pc' := by
  cases pc' <;> rfl

theorem effect_goto {mem : Bytes} : (system.goto caller pc).effect mappings caller mem pc' =
    (system.effect mappings caller mem pc').goto caller pc := by
  cases pc' <;> rfl

omit [DecidableEq Caller] in
theorem effect_ended {mem : Bytes} :
    (system.effect mappings caller mem pc).ended = system.ended := by
  cases pc <;> rfl

theorem Comes.advance (comes : Comes mappings origin system caller pc)
    (continues : system.next mappings pc = some pc') (mem : Bytes) :
    Comes mappings origin (system.effect mappings caller mem pc) caller pc' := by
  rcases comes with ⟨⟨past, run⟩, running⟩
  have notEnded : (system.goto caller pc).ended = false := running
  have at_pc : (system.goto caller pc).caller caller = pc := Function.update_self _ _ _
  refine ⟨⟨_, run.extend (.advance caller mem) ?_⟩, effect_ended.trans running⟩
  simp only [step, notEnded, at_pc, next_goto, continues, effect_goto, Bool.false_eq_true, if_false,
    Option.map_some, goto_goto]

/-- What a call of `ul_mmap` leaves that no other call disturbs. -/
structure Mapped (mappings : Mappings Id) (system after : MmapProcess Id Caller) (id : Id) :
    Prop where
  process : after.process = system.process
  mutex : after.mutex = none
  mmapRegions : after.mmapRegions =
    Function.update system.mmapRegions (mappings.region id).baseAddr (some id)
  thread : after.thread = Function.update system.thread id .running
  vma : after.vma = (mappings.region id).addTo id system.vma
  armed : after.armed = (mappings.region id).addTo id system.armed

theorem Comes.mapped (comes : Comes mappings origin system caller (.mmapReserve id))
    (positive : 0 < (mappings.region id).length)
    (free : ∀ offset < (mappings.region id).length,
      system.vma ((mappings.region id).baseAddr + offset) = none)
    (unlocked : system.mutex = none) :
    ∃ after, Comes mappings origin after caller .idle ∧ Mapped mappings system after id := by
  have mem : Bytes := system.process.mem
  let reserved : MmapProcess Id Caller :=
    { system with vma := (mappings.region id).addTo id system.vma }
  let started : MmapProcess Id Caller :=
    { reserved with
      armed := (mappings.region id).addTo id system.armed
      thread := Function.update system.thread id .running }
  let registered : MmapProcess Id Caller :=
    { started with
      mutex := none
      mmapRegions := Function.update system.mmapRegions (mappings.region id).baseAddr (some id) }
  have atOpen : Comes mappings origin reserved caller (.mmapOpen id) :=
    comes.advance (if_pos ⟨positive, free⟩) mem
  have atRegister := (atOpen.advance rfl mem).advance rfl mem
  have atLock : Comes mappings origin started caller (.mmapLock id) :=
    ((atRegister.advance rfl mem).advance rfl mem).advance rfl mem
  have atInsert := atLock.advance (if_pos (by rw [Option.isNone_iff_eq_none]; exact unlocked)) mem
  have atIdle : Comes mappings origin registered caller .idle :=
    ((atInsert.advance rfl mem).advance rfl mem).advance rfl mem
  exact ⟨registered, atIdle, rfl, rfl, rfl, rfl, rfl, rfl⟩

theorem Comes.callMmap (comes : Comes mappings origin system caller .idle)
    (fresh : system.issued id = false) :
    Comes mappings origin { system with issued := Function.update system.issued id true } caller
      (.mmapTest id) := by
  rcases comes with ⟨⟨past, run⟩, running⟩
  have notEnded : (system.goto caller .idle).ended = false := running
  have isIdle : (system.goto caller .idle).caller caller = .idle := Function.update_self _ _ _
  have isFresh : (system.goto caller .idle).issued id = false := fresh
  refine ⟨⟨_, run.extend (.callMmap caller id) ?_⟩, running⟩
  simp only [step, notEnded, isIdle, isFresh, and_self, Bool.false_eq_true, if_false, if_true,
    goto_goto]
  rfl

theorem Comes.callMunmap (comes : Comes mappings origin system caller .idle) (addr length : ℕ) :
    Comes mappings origin system caller (.munmapLock addr length) := by
  rcases comes with ⟨⟨past, run⟩, running⟩
  have notEnded : (system.goto caller .idle).ended = false := running
  have isIdle : (system.goto caller .idle).caller caller = .idle := Function.update_self _ _ _
  refine ⟨⟨_, run.extend (.callMunmap caller addr length) ?_⟩, running⟩
  simp only [step, notEnded, isIdle, Bool.false_eq_true, if_false, if_true, goto_goto]

/-- A step of the handlers is a step of the process. -/
theorem Comes.handle (comes : Comes mappings origin system caller pc) {process : Process Id}
    (action : Action Id) (allowed : system.Allows action)
    (stepped : FaultHandler.step mappings.toSetup system.process action = some process)
    (running : process.aborted = false) :
    Comes mappings origin { system with process := process } caller pc := by
  rcases comes with ⟨⟨past, run⟩, notEnded⟩
  have goesOn : (system.goto caller pc).ended = false := notEnded
  have allowedStill : (system.goto caller pc).Allows action := by
    cases action <;> exact allowed
  constructor
  · refine ⟨_, run.extend (.handler action) ?_⟩
    simp only [step, goesOn, Bool.false_eq_true, if_false, if_pos allowedStill]
    rw [Option.map_eq_some_iff]
    exact ⟨process, stepped, rfl⟩
  · rw [ended, Bool.or_eq_false_iff] at notEnded ⊢
    exact ⟨notEnded.1, running⟩

/-- A call of `ul_mmap` that no other call disturbs starts a handler and registers its region. -/
theorem Comes.mapped_of_free (comes : Comes mappings origin system caller .idle)
    (fresh : system.issued id = false) (positive : 0 < (mappings.region id).length)
    (free : ∀ offset < (mappings.region id).length,
      system.vma ((mappings.region id).baseAddr + offset) = none)
    (unlocked : system.mutex = none) :
    ∃ after, Comes mappings origin after caller .idle ∧ Mapped mappings system after id := by
  have mem : Bytes := system.process.mem
  have atTest := comes.callMmap fresh
  cases initialized : system.pteditorInitFlag with
  | true =>
      have atReserve := atTest.advance (congrArg some (if_pos initialized)) mem
      rcases atReserve.mapped positive free unlocked with ⟨after, atIdle, mapped⟩
      exact ⟨after, atIdle, mapped.process, mapped.mutex, mapped.mmapRegions, mapped.thread,
        mapped.vma, mapped.armed⟩
  | false =>
      have notInitialized : ¬system.pteditorInitFlag = true := by simp [initialized]
      have atInit := atTest.advance (congrArg some (if_neg notInitialized)) mem
      rcases (atInit.advance rfl mem).mapped positive free unlocked with ⟨after, atIdle, mapped⟩
      exact ⟨after, atIdle, mapped.process, mapped.mutex, mapped.mmapRegions, mapped.thread,
        mapped.vma, mapped.armed⟩

/-- A call of `ul_munmap` that finds its region and the mutex free comes to the join. -/
theorem Comes.joins (comes : Comes mappings origin system caller .idle) {addr : ℕ}
    (registered : system.mmapRegions addr = some id) (unlocked : system.mutex = none)
    (length : ℕ) (mem : Bytes) :
    ∃ after, Comes mappings origin after caller (.munmapJoin addr id) := by
  have atLock := comes.callMunmap addr length
  have atFind := atLock.advance (if_pos (by rw [Option.isNone_iff_eq_none]; exact unlocked)) mem
  have found : (system.effect mappings caller mem (.munmapLock addr length)).next mappings
      (.munmapFind addr length) = some (.munmapUnmap addr length id) := by
    simp [next, effect, registered]
  have atUnmap := atFind.advance found mem
  have atFinish := (atUnmap.advance rfl mem).advance rfl mem
  exact ⟨_, atFinish.advance rfl mem⟩

end MmapProcess

/-! ## A region over the sample tables -/

/-- One call of `ul_mmap`. -/
def sampleMappings (prot : BitVec 32) : Mappings Unit :=
  { loneSetup none with
    prot := fun _ => prot
    root_pos := Nat.one_pos }

theorem sample_mapped (prot : BitVec 32) :
    ∃ after : MmapProcess Unit Unit,
      MmapProcess.Comes (sampleMappings prot) (initial sampleMemory) after () .idle ∧
        MmapProcess.Mapped (sampleMappings prot) (initial sampleMemory) after () := by
  have comes : MmapProcess.Comes (sampleMappings prot)
      (initial sampleMemory : MmapProcess Unit Unit) (initial sampleMemory) () .idle :=
    ⟨⟨[], Run.start⟩, rfl⟩
  apply comes.mapped_of_free rfl
  · exact Nat.zero_lt_succ 0x3fff
  · intro offset _
    rfl
  · rfl

end UserLevelMmap.FaultHandler
