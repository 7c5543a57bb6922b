import UserLevelMmap.FaultHandler.Content
import Mathlib.Data.List.Perm.Basic

/-!
# Handlers of several regions

Every region has a handler of its own with its own userfaultfd, file, offset and base
address. The handlers share the buffer `msg`, a function-local `static`: a handler that
reads a message while another one is between its read and its wake replaces the address
that the other still has to fill, update and wake. When messages are read one at a time,
and the file has the page of each of them, every message is served as its own region asks.
-/

namespace UserLevelMmap.FaultHandler

variable {Id : Type} [DecidableEq Id] {setup : Setup Id}

/-! ## What the handlers have done -/

/-- What the handler of a region has done, newest event first. -/
def log (setup : Setup Id) (id : Id) (past : History (Process Id) (Action Id)) : List Event :=
  past.filterMap (fun moment => event setup id moment.1 moment.2)

/-- The address of a message that is read. -/
def Event.message : Event → Option ℕ
  | .reads address => some address
  | _ => none

/-- The address of a message that an action adds to the queue of a region. -/
def queuedBy (id : Id) : Action Id → Option ℕ
  | .fault actor address => if actor = id then some address else none
  | _ => none

/-- The addresses of all messages for a region, newest first. -/
def faulted (id : Id) (past : History (Process Id) (Action Id)) : List ℕ :=
  past.filterMap (fun moment => queuedBy id moment.2)

/-- What the handler does for one message. -/
structure Service where
  address : ℕ
  bytes : List (BitVec 8)

/-- The events of an iteration, newest first. -/
def Service.events (service : Service) : List Event :=
  [.wakes (service.address / pageSize * pageSize) pageSize, .updates service.address,
    .fills service.bytes, .reads service.address]

/-- The message is one of the region, and the bytes are those that belong at its address. -/
structure Service.Own (region : Region) (service : Service) : Prop where
  contains : region.Contains service.address
  length_eq : service.bytes.length = pageSize
  content : ∃ faultCnt, ∀ position, position < pageSize →
    service.bytes[position]? = region.byteAt faultCnt (service.address + position)

/-- The number of events since the handler was in `poll`. -/
def Pc.events : Pc → ℕ
  | .polling => 0
  | .received => 1
  | .filled _ => 2
  | .located _ => 2
  | .resolved _ => 2
  | .updated => 3

/-- The handler of a region has served its messages one after the other, each by one fill with
the bytes of its own region, one update and one wake at the address of the message; no message
has been lost, and an iteration that has begun can go on. -/
structure ServesOwn (setup : Setup Id) (past : History (Process Id) (Action Id))
    (process : Process Id) (id : Id) : Prop where
  running : process.aborted = false
  services : ∃ (current : Service) (served : List Service),
    (0 < (process.pc id).events → current.Own (setup.region id)) ∧
    (∀ service ∈ served, service.Own (setup.region id)) ∧
    log setup id past =
      current.events.drop (4 - (process.pc id).events) ++ served.flatMap Service.events
  kept : (faulted id past).Perm
    ((log setup id past).filterMap Event.message ++ process.queue id)
  goesOn : process.pc id ≠ .polling → ∀ givenPage, setup.Mallocs process.blocks givenPage →
    ∃ action ∈ [.fill id givenPage, .getPfn id, .resolve id, .update id, .wake id],
      (step setup process action).isSome

/-! ## One message at a time -/

/-- A message is read while no other handler is serving one, and the file has its page. -/
def Undisturbed (setup : Setup Id) (process : Process Id) : Action Id → Prop
  | .read id address =>
      (∀ other, other ≠ id → process.pc other = .polling) ∧ (setup.region id).HasPage address
  | _ => True

/-- What is known about the message that a handler is serving. -/
structure Serves (setup : Setup Id) (past : History (Process Id) (Action Id))
    (process : Process Id) (id : Id) (current : Service) (served : List Service) : Prop where
  own : process.pc id ≠ .polling → current.Own (setup.region id)
  isMsg : process.pc id ≠ .polling → current.address = process.msg
  fills : process.pc id = .received →
    (setup.region id).fillBytes (process.faultCnt id) process.msg = some current.bytes
  servedOwn : ∀ service ∈ served, service.Own (setup.region id)
  log_eq : log setup id past =
    current.events.drop (4 - (process.pc id).events) ++ served.flatMap Service.events

/-- The invariant of handlers that read one message at a time. -/
structure Orderly (setup : Setup Id) (past : History (Process Id) (Action Id))
    (process : Process Id) : Prop where
  running : process.aborted = false
  alone : ∀ {id other : Id}, process.pc id ≠ .polling → other ≠ id → process.pc other = .polling
  queued : ∀ {id : Id} {address : ℕ}, address ∈ process.queue id →
    (setup.region id).Contains address
  serves : ∀ id, ∃ current served, Serves setup past process id current served
  kept : ∀ id, (faulted id past).Perm
    ((log setup id past).filterMap Event.message ++ process.queue id)

variable {past : History (Process Id) (Action Id)} {process after : Process Id}
  {action : Action Id} {id : Id}

theorem log_cons : log setup id ((process, action) :: past) =
    (event setup id process action).toList ++ log setup id past := by
  rw [log, List.filterMap_cons]
  cases event setup id process action with
  | none => rfl
  | some _ => rfl

theorem faulted_cons : faulted id ((process, action) :: past) =
    (queuedBy id action).toList ++ faulted id past := by
  rw [faulted, List.filterMap_cons]
  simp only
  cases queuedBy id action with
  | none => rfl
  | some _ => rfl

theorem Serves.of_polling {current : Service} {served : List Service}
    (serves : Serves setup past process id current served) (at_pc : process.pc id = .polling)
    (at_pc' : after.pc id = .polling) (silent : event setup id process action = none) :
    Serves setup ((process, action) :: past) after id current served where
  own active := absurd at_pc' active
  isMsg active := absurd at_pc' active
  fills isReceived := by
    rw [at_pc'] at isReceived
    contradiction
  servedOwn := serves.servedOwn
  log_eq := by
    rw [log_cons, silent, serves.log_eq, at_pc, at_pc']
    rfl

theorem Serves.of_silent {current : Service} {served : List Service}
    (serves : Serves setup past process id current served) (active : process.pc id ≠ .polling)
    (sameMsg : after.msg = process.msg) (samePhase : (after.pc id).events = (process.pc id).events)
    (notReceived : after.pc id ≠ .received) (silent : event setup id process action = none) :
    Serves setup ((process, action) :: past) after id current served where
  own _ := serves.own active
  isMsg _ := (serves.isMsg active).trans sameMsg.symm
  fills isReceived := absurd isReceived notReceived
  servedOwn := serves.servedOwn
  log_eq := by
    rw [log_cons, silent, serves.log_eq, samePhase]
    rfl

theorem messages_cons : (log setup id ((process, action) :: past)).filterMap Event.message =
    ((event setup id process action).bind Event.message).toList ++
      (log setup id past).filterMap Event.message := by
  rw [log_cons, List.filterMap_append]
  cases event setup id process action with
  | none => rfl
  | some step => cases step <;> rfl

namespace Orderly

theorem advance (orderly : Orderly setup past process)
    (stepped : FaultHandler.step setup process action = some after) {actor : Id}
    (active : process.pc actor ≠ .polling) (running : after.aborted = false)
    (sameQueue : after.queue = process.queue)
    (others : ∀ other, other ≠ actor → after.pc other = process.pc other)
    (silent : ∀ other, other ≠ actor → event setup other process action = none)
    (noRead : ∀ id, (event setup id process action).bind Event.message = none)
    (noFault : ∀ id, queuedBy id action = none)
    (serves : ∃ current served,
      Serves setup ((process, action) :: past) after actor current served) :
    Orderly setup ((process, action) :: past) after where
  running := running
  alone := by
    intro id other activeAfter distinct
    by_cases isActor : id = actor
    · subst id
      rw [others other distinct]
      exact orderly.alone active distinct
    · rw [others id isActor] at activeAfter
      exact absurd (orderly.alone active isActor) activeAfter
  queued := step_queued stepped orderly.queued
  serves := by
    intro id
    by_cases isActor : id = actor
    · subst id
      exact serves
    · rcases orderly.serves id with ⟨current, served, servesBefore⟩
      have at_pc := orderly.alone active isActor
      exact ⟨current, served,
        servesBefore.of_polling at_pc (by rw [others id isActor, at_pc]) (silent id isActor)⟩
  kept := by
    intro id
    rw [messages_cons, faulted_cons, noRead, noFault, sameQueue]
    exact orderly.kept id

/-- The step of a handler between two events of its service. -/
theorem goto (orderly : Orderly setup past process) {actor : Id} {pc : Pc}
    (stepped : FaultHandler.step setup process action = some (process.goto actor pc))
    (active : process.pc actor ≠ .polling) (samePhase : pc.events = (process.pc actor).events)
    (notReceived : pc ≠ .received) (silent : ∀ id, event setup id process action = none)
    (noFault : ∀ id, queuedBy id action = none) :
    Orderly setup ((process, action) :: past) (process.goto actor pc) := by
  have at_pc : (process.goto actor pc).pc actor = pc := Function.update_self _ _ _
  rcases orderly.serves actor with ⟨current, served, serves⟩
  apply orderly.advance stepped active orderly.running
  · rfl
  · intro other isOther
    exact Function.update_of_ne isOther _ _
  · intro other _
    exact silent other
  · intro id
    rw [silent id]
    rfl
  · exact noFault
  · refine ⟨current, served, ?_⟩
    apply serves.of_silent active
    · rfl
    · rw [at_pc]
      exact samePhase
    · rw [at_pc]
      exact notReceived
    · exact silent actor

theorem read (orderly : Orderly setup past process) {actor : Id} {address : ℕ}
    (queuedAfter : ∀ {id : Id} {other : ℕ},
      other ∈ Function.update process.queue actor ((process.queue actor).erase address) id →
        (setup.region id).Contains other)
    (alone : ∀ other, other ≠ actor → process.pc other = .polling)
    (hasPage : (setup.region actor).HasPage address) (at_pc : process.pc actor = .polling)
    (queued : address ∈ process.queue actor) :
    Orderly setup ((process, .read actor address) :: past)
      { process with
        msg := address
        pc := Function.update process.pc actor .received
        queue := Function.update process.queue actor ((process.queue actor).erase address) } where
  running := orderly.running
  alone := by
    intro id other active distinct
    by_cases isActor : other = actor
    · subst other
      simp only [Function.update_of_ne (Ne.symm distinct)] at active
      exact absurd (alone id (Ne.symm distinct)) active
    · simp only [Function.update_of_ne isActor]
      exact alone other isActor
  queued := queuedAfter
  serves := by
    intro id
    rcases orderly.serves id with ⟨current, served, serves⟩
    by_cases isActor : id = actor
    · subst id
      have contains := orderly.queued queued
      rcases Region.fillBytes_of_hasPage contains hasPage (process.faultCnt actor) with
        ⟨bytes, filled⟩
      refine ⟨⟨address, bytes⟩, served, ?_, ?_, ?_, serves.servedOwn, ?_⟩
      · intro _
        exact ⟨contains, Region.fillBytes_length filled, process.faultCnt actor,
          fun position inPage => Region.getElem_fillBytes contains filled inPage⟩
      · exact fun _ => rfl
      · exact fun _ => filled
      · rw [log_cons, serves.log_eq, at_pc]
        simp [event, Pc.events, Service.events]
    · refine ⟨current, served, serves.of_polling (alone id isActor) ?_ ?_⟩
      · simp only [Function.update_of_ne isActor]
        exact alone id isActor
      · simp [event, Ne.symm isActor]
  kept := by
    intro id
    have kept := orderly.kept id
    rw [messages_cons, faulted_cons]
    by_cases isActor : id = actor
    · subst id
      simp only [event, if_true, Option.bind_some, Event.message, Option.toList_some,
        queuedBy, Option.toList_none, List.nil_append, Function.update_self, List.cons_append]
      apply kept.trans
      have moved := (List.perm_cons_erase queued).append_left
        ((log setup actor past).filterMap Event.message)
      exact moved.trans List.perm_middle
    · simpa [event, queuedBy, Ne.symm isActor, Function.update_of_ne isActor] using kept

theorem outside (orderly : Orderly setup past process)
    (stepped : FaultHandler.step setup process action = some after) (samePc : after.pc = process.pc)
    (sameMsg : after.msg = process.msg) (sameCnt : after.faultCnt = process.faultCnt)
    (running : after.aborted = false)
    (silent : ∀ id, event setup id process action = none)
    (kept : ∀ id, (faulted id ((process, action) :: past)).Perm
      ((log setup id past).filterMap Event.message ++ after.queue id)) :
    Orderly setup ((process, action) :: past) after where
  running := running
  alone := by
    rw [samePc]
    exact orderly.alone
  queued := step_queued stepped orderly.queued
  serves := by
    intro id
    rcases orderly.serves id with ⟨current, served, serves⟩
    refine ⟨current, served, ?_, ?_, ?_, serves.servedOwn, ?_⟩
    · rw [samePc]
      exact serves.own
    · rw [samePc, sameMsg]
      exact serves.isMsg
    · rw [samePc, sameMsg, sameCnt]
      exact serves.fills
    · rw [log_cons, silent, samePc]
      exact serves.log_eq
  kept := by
    intro id
    rw [messages_cons, silent]
    exact kept id

theorem step (orderly : Orderly setup past process) (undisturbed : Undisturbed setup process action)
    (stepped : FaultHandler.step setup process action = some after) :
    Orderly setup ((process, action) :: past) after := by
  cases step_effect stepped with
  | fault actor address contains =>
      apply orderly.outside stepped rfl rfl rfl orderly.running (fun _ => rfl)
      intro id
      have kept := orderly.kept id
      rw [faulted_cons]
      by_cases isActor : id = actor
      · subst id
        simp only [queuedBy, if_true, Option.toList_some, List.singleton_append,
          Function.update_self, ← List.append_assoc]
        exact (kept.cons address).trans (List.perm_append_singleton _ _).symm
      · simpa [queuedBy, Ne.symm isActor, Function.update_of_ne isActor] using kept
  | read actor address at_pc queued =>
      exact orderly.read (step_queued stepped orderly.queued) undisturbed.1 undisturbed.2 at_pc
        queued
  | fill actor givenPage bytes at_pc mallocs filled =>
      rcases orderly.serves actor with ⟨current, served, serves⟩
      have bytes_eq := (serves.fills at_pc).symm.trans filled
      rw [Option.some.injEq] at bytes_eq
      have active : process.pc actor ≠ .polling := by simp [at_pc]
      refine orderly.advance stepped active orderly.running rfl
        (fun _ isOther => Function.update_of_ne isOther _ _)
        (fun _ isOther => if_neg (Ne.symm isOther)) ?_ (fun _ => rfl) ⟨current, served, ?_⟩
      · intro id
        by_cases isActor : actor = id
        · subst id
          simp [event, filled, Event.message]
        · simp [event, isActor]
      · refine ⟨fun _ => serves.own active, fun _ => serves.isMsg active, ?_, serves.servedOwn, ?_⟩
        · simp
        · rw [log_cons, serves.log_eq, at_pc]
          simp [event, filled, bytes_eq, Pc.events, Service.events]
  | abort actor givenPage at_pc fails =>
      rcases orderly.serves actor with ⟨current, served, serves⟩
      have filled := serves.fills at_pc
      rw [fails] at filled
      contradiction
  | getPfn actor givenPage at_pc =>
      apply orderly.goto stepped
      · simp [at_pc]
      · rw [at_pc]
        rfl
      · simp
      · simp [event]
      · simp [queuedBy]
  | resolve actor givenPagePfn at_pc =>
      apply orderly.goto stepped
      · simp [at_pc]
      · rw [at_pc]
        rfl
      · simp
      · simp [event]
      · simp [queuedBy]
  | update actor vm at_pc =>
      rcases orderly.serves actor with ⟨current, served, serves⟩
      have active : process.pc actor ≠ .polling := by simp [at_pc]
      refine orderly.advance stepped active orderly.running rfl
        (fun _ isOther => Function.update_of_ne isOther _ _)
        (fun _ isOther => if_neg (Ne.symm isOther)) ?_ (fun _ => rfl) ⟨current, served, ?_⟩
      · intro id
        by_cases isActor : actor = id <;> simp [event, isActor, Event.message]
      · refine ⟨fun _ => serves.own active, fun _ => serves.isMsg active, ?_, serves.servedOwn, ?_⟩
        · simp
        · rw [log_cons, serves.log_eq, at_pc]
          simp [event, Pc.events, Service.events, serves.isMsg active]
  | wake actor at_pc =>
      rcases orderly.serves actor with ⟨current, served, serves⟩
      have active : process.pc actor ≠ .polling := by simp [at_pc]
      refine orderly.advance stepped active orderly.running rfl
        (fun _ isOther => Function.update_of_ne isOther _ _)
        (fun _ isOther => if_neg (Ne.symm isOther)) ?_ (fun _ => rfl)
        ⟨current, current :: served, ?_⟩
      · intro id
        by_cases isActor : actor = id <;> simp [event, isActor, Event.message]
      · refine ⟨?_, ?_, ?_, ?_, ?_⟩
        · simp [Process.goto]
        · simp [Process.goto]
        · simp [Process.goto]
        · intro service mem
          rcases List.mem_cons.mp mem with rfl | mem
          · exact serves.own active
          · exact serves.servedOwn service mem
        · rw [log_cons, serves.log_eq, at_pc]
          simp [event, Process.goto, Pc.events, Service.events, serves.isMsg active]
  | store actor address byte contains mapped =>
      apply orderly.outside stepped rfl rfl rfl orderly.running (fun _ => rfl)
      intro id
      rw [faulted_cons]
      exact orderly.kept id

theorem goesOn (orderly : Orderly setup past process) (active : process.pc id ≠ .polling)
    {givenPage : ℕ} (mallocs : setup.Mallocs process.blocks givenPage) :
    ∃ action ∈ [.fill id givenPage, .getPfn id, .resolve id, .update id, .wake id],
      (FaultHandler.step setup process action).isSome := by
  have running := orderly.running
  rcases orderly.serves id with ⟨current, served, serves⟩
  cases at_pc : process.pc id with
  | polling => exact absurd at_pc active
  | received =>
      refine ⟨.fill id givenPage, by simp, ?_⟩
      simp [FaultHandler.step, running, at_pc, mallocs, serves.fills at_pc]
  | filled block =>
      refine ⟨.getPfn id, by simp, ?_⟩
      simp [FaultHandler.step, running, at_pc]
  | located givenPagePfn =>
      refine ⟨.resolve id, by simp, ?_⟩
      simp [FaultHandler.step, running, at_pc]
  | resolved vm =>
      refine ⟨.update id, by simp, ?_⟩
      simp [FaultHandler.step, running, at_pc]
  | updated =>
      refine ⟨.wake id, by simp, ?_⟩
      simp [FaultHandler.step, running, at_pc]

end Orderly

theorem orderly_of_run {mem : Bytes} (run : Run (step setup) (start mem) past process)
    (undisturbed : Guarded (Undisturbed setup) past) : Orderly setup past process := by
  induction run with
  | start =>
      refine ⟨rfl, by simp [start], by simp [start], ?_, by simp [faulted, log, start]⟩
      intro id
      exact ⟨⟨0, []⟩, [], by simp [start], by simp [start], by simp [start], by simp, rfl⟩
  | step run stepped ih => exact (ih undisturbed.tail).step undisturbed.head stepped

/-- For any number of regions, in every run in which a message is read only while no other handler
is serving one and the file has its page, the handler of every region serves all its messages,
each by one fill from its own file, one update and one wake at the address of the message. -/
theorem servesOwn_of_undisturbed {mem : Bytes} (run : Run (step setup) (start mem) past process)
    (undisturbed : Guarded (Undisturbed setup) past) (id : Id) :
    ServesOwn setup past process id := by
  have orderly := orderly_of_run run undisturbed
  rcases orderly.serves id with ⟨current, served, serves⟩
  refine ⟨orderly.running, ⟨current, served, ?_, serves.servedOwn, serves.log_eq⟩, orderly.kept id,
    fun active givenPage mallocs => orderly.goesOn active mallocs⟩
  intro begun
  apply serves.own
  intro at_pc
  rw [at_pc] at begun
  exact absurd begun (Nat.lt_irrefl 0)

theorem servesOwn_on_sample :
    ∃ past process, Run (step twoSetup) (start sampleMemory) past process ∧
      Guarded (Undisturbed twoSetup) past ∧
      PageTable.translate process.mem twoSetup.root 0x100234 = some 32 ∧
      PageTable.translate process.mem twoSetup.root 0x110000 = some 33 ∧
      ServesOwn twoSetup past process 0 ∧ ServesOwn twoSetup past process 1 := by
  rcases two_served (Undisturbed twoSetup)
    (by
      intro state action allowed
      cases action with
      | read id address =>
          exact ⟨fun other _ => allowed id address rfl other, fun file isFile => by contradiction⟩
      | _ => trivial) with
    ⟨past, process, undisturbed, run, mapped, mappedOther⟩
  exact ⟨past, process, run, undisturbed, mapped, mappedOther,
    servesOwn_of_undisturbed run undisturbed 0, servesOwn_of_undisturbed run undisturbed 1⟩

theorem not_servesOwn_of_log {address place start len : ℕ} {bytes : List (BitVec 8)}
    (at_pc : process.pc id = .polling)
    (log_eq : log setup id past =
      [.wakes start len, .updates place, .fills bytes, .reads address])
    (distinct : place ≠ address) : ¬ServesOwn setup past process id := by
  rintro ⟨_, ⟨current, served, _, _, served_eq⟩, _, _⟩
  rw [log_eq, at_pc] at served_eq
  cases served with
  | nil => simp [Pc.events, Service.events] at served_eq
  | cons service rest =>
      simp only [Pc.events, Service.events, Nat.sub_zero, List.drop_succ_cons, List.drop_zero,
        List.flatMap_cons, List.nil_append, List.cons_append, List.cons.injEq, Event.updates.injEq,
        Event.reads.injEq] at served_eq
      rcases served_eq with ⟨_, sameUpdate, _, sameRead, _⟩
      exact distinct (sameUpdate.trans sameRead.symm)

/-- The handler of the second region reads its message after that of the first: the first handler
updates and wakes the page of the second. -/
theorem message_served_elsewhere :
    ∃ past process, Run (step twoSetup) (start sampleMemory) past process ∧
      log twoSetup 0 past = [.wakes 0x110000 pageSize, .updates 0x110000,
        .fills (List.replicate pageSize 65), .reads 0x100234] ∧
      ¬ServesOwn twoSetup past process 0 := by
  have contains : (twoSetup.region 0).Contains 0x100234 := by decide
  have containsOther : (twoSetup.region 1).Contains 0x110000 := by decide
  have mallocs : twoSetup.Mallocs [] 0x10010 := by decide
  have filled : (twoSetup.region 0).fillBytes 0 0x110000 = some (List.replicate pageSize 65) := rfl
  have rounded : 0x110000 / pageSize * pageSize = 0x110000 := rfl
  suffices reached : ∃ past process, Run (step twoSetup) (start sampleMemory) past process ∧
      process.pc 0 = .polling ∧
      log twoSetup 0 past = [.wakes 0x110000 pageSize, .updates 0x110000,
        .fills (List.replicate pageSize 65), .reads 0x100234] by
    rcases reached with ⟨past, process, run, at_pc, log_eq⟩
    exact ⟨past, process, run, log_eq, not_servesOwn_of_log at_pc log_eq (by decide)⟩
  have run : Run (step twoSetup) (start sampleMemory) [] (start sampleMemory) := .start
  have run := run.extend (.fault 0 0x100234) (by simp [step, start, contains]; rfl)
  have run := run.extend (.fault 1 0x110000) (by simp [step, containsOther]; rfl)
  have run := run.extend (.read 0 0x100234) (by simp [step]; rfl)
  have run := run.extend (.read 1 0x110000) (by simp [step]; rfl)
  have run := run.extend (.fill 0 0x10010) (by simp [step, mallocs, filled]; rfl)
  have run := run.extend (.getPfn 0) (by simp [step]; rfl)
  have run := run.extend (.resolve 0) (by simp [step, Process.goto]; rfl)
  have run := run.extend (.update 0) (by simp [step]; rfl)
  have run := run.extend (.wake 0) (by simp [step]; rfl)
  exact ⟨_, _, run, by simp [Process.goto], by simp [log, event, filled, Process.goto, rounded]⟩

end UserLevelMmap.FaultHandler
