import UserLevelMmap.FaultHandler.Registry

/-!
# The end of `ul_munmap`

`ul_munmap` sets `finish`, joins the handler and removes the region from the registry, all
of it while it owns the mutex. The handler does not read `finish`: its loop has no exit but
those that end the process. A `ul_munmap` of a registered address therefore never returns,
and no later call of `ul_mmap` or `ul_munmap` gets the mutex.
-/

namespace UserLevelMmap.FaultHandler

variable {Id Caller : Type}

/-! ## Who holds the mutex -/

/-- The caller is between its lock and its unlock of the mutex. -/
def CallerPc.critical : CallerPc Id → Bool
  | .mmapInsert _ => true
  | .mmapUnlock _ => true
  | .munmapFind _ _ => true
  | .munmapUnmap _ _ _ => true
  | .munmapUnregister _ _ _ => true
  | .munmapFinish _ _ => true
  | .munmapJoin _ _ => true
  | .munmapErase _ _ => true
  | .munmapPrint _ => true
  | .munmapUnlock => true
  | _ => false

/-- The registered region that a call of `ul_munmap` is about to remove. -/
def CallerPc.removes : CallerPc Id → Option (ℕ × Id)
  | .munmapUnmap addr _ id => some (addr, id)
  | .munmapUnregister addr _ id => some (addr, id)
  | .munmapFinish addr id => some (addr, id)
  | .munmapJoin addr id => some (addr, id)
  | .munmapErase addr id => some (addr, id)
  | _ => none

namespace MmapProcess

section Caller

variable [DecidableEq Id] {mappings : Mappings Id} {system : MmapProcess Id Caller}
  {caller : Caller} {mem : Bytes} {pc pc' : CallerPc Id}

/-- What a step of a caller does with the mutex. -/
inductive Handover (system : MmapProcess Id Caller) (caller : Caller) (pc pc' : CallerPc Id)
    (mutex : Option Caller) : Prop where
  | keeps (same : mutex = system.mutex) (sameSection : pc'.critical = pc.critical)
  | locks (free : system.mutex = none) (locked : mutex = some caller)
      (outside : pc.critical = false) (enters : pc'.critical = true)
  | unlocks (unlocked : mutex = none) (inside : pc.critical = true) (leaves : pc'.critical = false)

theorem handover_of_next (continues : system.next mappings pc = some pc') :
    Handover system caller pc pc' (system.effect mappings caller mem pc).mutex := by
  cases pc with
  | idle => contradiction
  | mmapTest id =>
      simp only [next, Option.some.injEq] at continues
      subst pc'
      apply Handover.keeps rfl
      split <;> rfl
  | mmapReserve id =>
      simp only [next, Option.ite_none_right_eq_some, Option.some.injEq] at continues
      rcases continues with ⟨_, rfl⟩
      exact .keeps rfl rfl
  | mmapLock id =>
      simp only [next, Option.ite_none_right_eq_some, Option.some.injEq,
        Option.isNone_iff_eq_none] at continues
      rcases continues with ⟨free, rfl⟩
      exact .locks free rfl rfl rfl
  | munmapLock addr length =>
      simp only [next, Option.ite_none_right_eq_some, Option.some.injEq,
        Option.isNone_iff_eq_none] at continues
      rcases continues with ⟨free, rfl⟩
      exact .locks free rfl rfl rfl
  | mmapUnlock id =>
      simp only [next, Option.some.injEq] at continues
      subst pc'
      exact .unlocks rfl rfl rfl
  | munmapUnlock =>
      simp only [next, Option.some.injEq] at continues
      subst pc'
      exact .unlocks rfl rfl rfl
  | munmapFind addr length =>
      simp only [next] at continues
      split at continues
      all_goals
        rw [Option.some.injEq] at continues
        subst pc'
        exact .keeps rfl rfl
  | munmapJoin addr id =>
      simp only [next, Option.ite_none_right_eq_some, Option.some.injEq] at continues
      rcases continues with ⟨_, rfl⟩
      exact .keeps rfl rfl
  | _ =>
      simp only [next, Option.some.injEq] at continues
      subst pc'
      exact .keeps rfl rfl

@[simp]
theorem effect_caller : (system.effect mappings caller mem pc).caller = system.caller := by
  cases pc <;> rfl

theorem effect_mmapRegions (outside : pc.critical = false) :
    (system.effect mappings caller mem pc).mmapRegions = system.mmapRegions := by
  cases pc <;> first | rfl | contradiction

/-- No step of a caller makes a handler return. -/
theorem effect_thread {id : Id} (running : system.thread id ≠ .returned) :
    (system.effect mappings caller mem pc).thread id ≠ .returned := by
  cases pc with
  | mmapStart started =>
      by_cases isStarted : id = started
      · subst id
        simp [effect]
      · simpa [effect, isStarted] using running
  | _ => exact running

theorem effect_finish {id : Id} (isSet : system.finish id = true) :
    (system.effect mappings caller mem pc).finish id = true := by
  cases pc with
  | munmapFinish addr finished =>
      by_cases isFinished : id = finished
      · subst id
        simp [effect]
      · simpa [effect, isFinished] using isSet
  | _ => exact isSet

/-- A call of `ul_munmap` that has found its region, or goes on with it. -/
theorem removes_of_next (continues : system.next mappings pc = some pc')
    (registered : ∀ {addr : ℕ} {id : Id}, pc.removes = some (addr, id) →
      system.mmapRegions addr = some id) {addr : ℕ} {id : Id}
    (removes : pc'.removes = some (addr, id)) :
    (system.effect mappings caller mem pc).mmapRegions addr = some id := by
  cases pc with
  | idle => contradiction
  | mmapTest mapped =>
      simp only [next, Option.some.injEq] at continues
      subst pc'
      split at removes <;> contradiction
  | mmapReserve mapped =>
      simp only [next, Option.ite_none_right_eq_some, Option.some.injEq] at continues
      rcases continues with ⟨_, rfl⟩
      contradiction
  | mmapLock mapped =>
      simp only [next, Option.ite_none_right_eq_some, Option.some.injEq] at continues
      rcases continues with ⟨_, rfl⟩
      contradiction
  | munmapLock found length =>
      simp only [next, Option.ite_none_right_eq_some, Option.some.injEq] at continues
      rcases continues with ⟨_, rfl⟩
      contradiction
  | munmapFind found length =>
      simp only [next] at continues
      split at continues
      · next region isRegistered =>
          rw [Option.some.injEq] at continues
          subst pc'
          simp only [CallerPc.removes, Option.some.injEq, Prod.mk.injEq] at removes
          rcases removes with ⟨rfl, rfl⟩
          exact isRegistered
      · rw [Option.some.injEq] at continues
        subst pc'
        contradiction
  | munmapJoin found region =>
      simp only [next, Option.ite_none_right_eq_some, Option.some.injEq] at continues
      rcases continues with ⟨_, rfl⟩
      exact registered removes
  | munmapUnmap found length region =>
      simp only [next, Option.some.injEq] at continues
      subst pc'
      exact registered removes
  | munmapUnregister found length region =>
      simp only [next, Option.some.injEq] at continues
      subst pc'
      exact registered removes
  | munmapFinish found region =>
      simp only [next, Option.some.injEq] at continues
      subst pc'
      exact registered removes
  | _ =>
      simp only [next, Option.some.injEq] at continues
      subst pc'
      contradiction

theorem finish_of_next {addr : ℕ} {id : Id}
    (continues : system.next mappings pc = some (.munmapJoin addr id)) :
    (system.effect mappings caller mem pc).finish id = true := by
  cases pc with
  | munmapFinish found region =>
      simp only [next, Option.some.injEq, CallerPc.munmapJoin.injEq] at continues
      rcases continues with ⟨rfl, rfl⟩
      simp [effect]
  | mmapTest mapped =>
      simp only [next, Option.some.injEq] at continues
      split at continues <;> contradiction
  | munmapFind found length =>
      simp only [next] at continues
      split at continues <;> cases continues
  | _ => simp [next] at continues

end Caller

/-- The invariant of the callers, the mutex and the registry. -/
structure Synchronized (system : MmapProcess Id Caller) : Prop where
  owner : ∀ caller, (system.caller caller).critical = true ↔ system.mutex = some caller
  unreturned : ∀ id, system.thread id ≠ .returned
  registered : ∀ {caller : Caller} {addr : ℕ} {id : Id},
    (system.caller caller).removes = some (addr, id) → system.mmapRegions addr = some id
  finishing : ∀ {caller : Caller} {addr : ℕ} {id : Id},
    system.caller caller = .munmapJoin addr id → system.finish id = true

theorem critical_of_removes {pc : CallerPc Id} {target : ℕ × Id}
    (removes : pc.removes = some target) : pc.critical = true := by
  cases pc <;> first | rfl | contradiction

namespace Synchronized

variable {mappings : Mappings Id} {system after : MmapProcess Id Caller}
  {action : MmapAction Id Caller}

/-- The registry does not change while a caller other than the actor holds the mutex. -/
theorem regions_eq (synchronized : Synchronized system) {actor caller : Caller}
    (regions : (system.caller actor).critical = false → after.mmapRegions = system.mmapRegions)
    (distinct : caller ≠ actor) (critical : (system.caller caller).critical = true) :
    after.mmapRegions = system.mmapRegions := by
  apply regions
  by_contra alsoCritical
  rw [Bool.not_eq_false] at alsoCritical
  have owns := (synchronized.owner caller).mp critical
  rw [(synchronized.owner actor).mp alsoCritical, Option.some.injEq] at owns
  exact distinct owns.symm

variable [DecidableEq Caller]

/-- The invariant after a step of one caller. -/
theorem of_actor (synchronized : Synchronized system) {actor : Caller} {pc : CallerPc Id}
    (callers : after.caller = Function.update system.caller actor pc)
    (handover : Handover system actor (system.caller actor) pc after.mutex)
    (unreturned : ∀ id, after.thread id ≠ .returned)
    (regions : (system.caller actor).critical = false → after.mmapRegions = system.mmapRegions)
    (registered : ∀ {addr : ℕ} {id : Id}, pc.removes = some (addr, id) →
      after.mmapRegions addr = some id)
    (kept : ∀ {id : Id}, system.finish id = true → after.finish id = true)
    (finishing : ∀ {addr : ℕ} {id : Id}, pc = .munmapJoin addr id → after.finish id = true) :
    Synchronized after where
  owner := by
    intro caller
    by_cases isActor : caller = actor
    · subst caller
      rw [callers, Function.update_self]
      cases handover with
      | keeps same sameSection =>
          rw [same, sameSection]
          exact synchronized.owner actor
      | locks free locked outside enters => simp [locked, enters]
      | unlocks unlocked inside leaves => simp [unlocked, leaves]
    · rw [callers, Function.update_of_ne isActor, synchronized.owner caller]
      cases handover with
      | keeps same sameSection => rw [same]
      | locks free locked outside enters => simp [free, locked, Ne.symm isActor]
      | unlocks unlocked inside leaves =>
          rw [(synchronized.owner actor).mp inside]
          simp [unlocked, Ne.symm isActor]
  unreturned := unreturned
  registered := by
    intro caller addr id removes
    by_cases isActor : caller = actor
    · subst caller
      rw [callers, Function.update_self] at removes
      exact registered removes
    · rw [callers, Function.update_of_ne isActor] at removes
      rw [synchronized.regions_eq regions isActor (critical_of_removes removes)]
      exact synchronized.registered removes
  finishing := by
    intro caller addr id at_pc
    by_cases isActor : caller = actor
    · subst caller
      rw [callers, Function.update_self] at at_pc
      exact finishing at_pc
    · rw [callers, Function.update_of_ne isActor] at at_pc
      exact kept (synchronized.finishing at_pc)

/-- The invariant after a step that only moves a caller. -/
theorem of_goto (synchronized : Synchronized system) {actor : Caller} {pc pc' : CallerPc Id}
    (at_pc : system.caller actor = pc) (sameSection : pc'.critical = pc.critical)
    (target : pc'.removes = pc.removes) (noJoin : ∀ addr id, pc' ≠ .munmapJoin addr id) :
    Synchronized (system.goto actor pc') := by
  have callers : (system.goto actor pc').caller = Function.update system.caller actor pc' := rfl
  apply synchronized.of_actor callers
  · rw [at_pc]
    exact .keeps rfl sameSection
  · exact synchronized.unreturned
  · intro _
    rfl
  · intro addr id removes
    rw [target, ← at_pc] at removes
    exact synchronized.registered removes
  · intro id isSet
    exact isSet
  · intro addr id isJoin
    exact absurd isJoin (noJoin addr id)

variable [DecidableEq Id]

theorem step (synchronized : Synchronized system)
    (stepped : system.step mappings action = some after) : Synchronized after := by
  cases step_effect stepped with
  | callMmap caller id isIdle fresh =>
      have moved : Synchronized (system.goto caller (.mmapTest id)) := by
        apply synchronized.of_goto isIdle
        · rfl
        · rfl
        · simp
      exact ⟨moved.owner, moved.unreturned, moved.registered, moved.finishing⟩
  | callMunmap caller addr length isIdle =>
      apply synchronized.of_goto isIdle
      · rfl
      · rfl
      · simp
  | ignoreUnmap caller addr length id at_pc =>
      apply synchronized.of_goto at_pc
      · rfl
      · rfl
      · simp
  | ignoreUnregister caller addr length id at_pc =>
      apply synchronized.of_goto at_pc
      · rfl
      · rfl
      · simp
  | advance caller mem pc continues =>
      have callers : ((system.effect mappings caller mem (system.caller caller)).goto caller
          pc).caller = Function.update system.caller caller pc := by
        simp [goto]
      apply synchronized.of_actor callers
      · exact handover_of_next continues
      · intro id
        exact effect_thread (synchronized.unreturned id)
      · exact effect_mmapRegions
      · exact removes_of_next continues synchronized.registered
      · exact effect_finish
      · rintro addr id rfl
        exact finish_of_next continues
  -- A step of a handler and an exit change nothing that the invariant speaks about.
  | _ =>
      exact ⟨synchronized.owner, synchronized.unreturned, synchronized.registered,
        synchronized.finishing⟩

end Synchronized

theorem initial_synchronized (mem : Bytes) :
    Synchronized (initial mem : MmapProcess Id Caller) where
  owner := by simp [initial, CallerPc.critical]
  unreturned := by simp [initial]
  registered := by simp [initial, CallerPc.removes]
  finishing := by simp [initial]

/-! ## Waiting for the handler -/

/-- How `ul_munmap` is meant to end. -/
structure Completes (system after : MmapProcess Id Caller) (caller : Caller) (addr : ℕ) (id : Id) :
    Prop where
  handler : after.thread id = .returned
  result : after.caller caller = .munmapReturned 0
  registry : after.mmapRegions = Function.update system.mmapRegions addr none
  unlocked : after.mutex = none

section Join

variable [DecidableEq Id] [DecidableEq Caller] {mappings : Mappings Id}
  {system after : MmapProcess Id Caller} {action : MmapAction Id Caller} {caller : Caller}
  {addr : ℕ} {id : Id}

/-- Some steps without an exit complete the call of `ul_munmap`. -/
def CanComplete (mappings : Mappings Id) (system : MmapProcess Id Caller) (caller : Caller)
    (addr : ℕ) (id : Id) : Prop :=
  ∃ later after, Run (step mappings) system later after ∧ after.ended = false ∧
    Completes system after caller addr id

/-- A caller in the join stays there, and the registry stays as it is. -/
theorem Synchronized.joins (synchronized : Synchronized system)
    (at_pc : system.caller caller = .munmapJoin addr id)
    (stepped : system.step mappings action = some after) :
    after.caller caller = .munmapJoin addr id ∧ after.mmapRegions = system.mmapRegions := by
  have others : ∀ {actor : Caller} {pc : CallerPc Id}, system.caller actor ≠ .munmapJoin addr id →
      Function.update system.caller actor pc caller = .munmapJoin addr id := by
    intro actor pc elsewhere
    have distinct : caller ≠ actor := by
      rintro rfl
      exact elsewhere at_pc
    rw [Function.update_of_ne distinct, at_pc]
  cases step_effect stepped with
  | callMmap actor mapped isIdle fresh => exact ⟨others (by simp [isIdle]), rfl⟩
  | callMunmap actor start length isIdle => exact ⟨others (by simp [isIdle]), rfl⟩
  | ignoreUnmap actor start length mapped at_unmap => exact ⟨others (by simp [at_unmap]), rfl⟩
  | ignoreUnregister actor start length mapped at_unregister =>
      exact ⟨others (by simp [at_unregister]), rfl⟩
  | advance actor mem pc continues =>
      have elsewhere : system.caller actor ≠ .munmapJoin addr id := by
        intro isJoin
        simp [isJoin, next, synchronized.unreturned id] at continues
      constructor
      · rw [goto, effect_caller]
        exact others elsewhere
      · have distinct : caller ≠ actor := by
          rintro rfl
          exact elsewhere at_pc
        apply synchronized.regions_eq effect_mmapRegions distinct
        rw [at_pc]
        rfl
  | _ => exact ⟨at_pc, rfl⟩

variable {mem : Bytes} {past later : History (MmapProcess Id Caller) (MmapAction Id Caller)}

theorem synchronized_of_run (run : Run (step mappings) (initial mem) past system) :
    Synchronized system :=
  run.invariant (fun _ _ => True) Synchronized (initial_synchronized mem)
    (fun synchronized _ stepped => synchronized.step stepped) (fun _ _ => trivial)

theorem joins_of_run (run : Run (step mappings) (initial mem) past system)
    (at_pc : system.caller caller = .munmapJoin addr id)
    (continued : Run (step mappings) system later after) :
    after.caller caller = .munmapJoin addr id ∧ after.mmapRegions = system.mmapRegions := by
  induction continued with
  | start => exact ⟨at_pc, rfl⟩
  | step continued stepped ih =>
      have synchronized := synchronized_of_run (run.trans continued)
      rcases synchronized.joins ih.1 stepped with ⟨stays, same⟩
      exact ⟨stays, same.trans ih.2⟩

theorem not_canComplete (run : Run (step mappings) (initial mem) past system) :
    ¬CanComplete mappings system caller addr id := by
  rintro ⟨later, after, continued, _, completes⟩
  exact (synchronized_of_run (run.trans continued)).unreturned id completes.handler

/-- From every state in which a `ul_munmap` has set `finish` and waits in the join, no steps
without an exit complete the call: whatever the handlers and the other callers do, the handler
does not return, and the caller keeps the mutex and leaves the registry as it is. -/
theorem munmap_never_completes (run : Run (step mappings) (initial mem) past system)
    (at_pc : system.caller caller = .munmapJoin addr id) :
    (system.mmapRegions addr = some id ∧ system.finish id = true) ∧
      ¬CanComplete mappings system caller addr id ∧
      ∀ later after, Run (step mappings) system later after →
        after.thread id ≠ .returned ∧ after.caller caller = .munmapJoin addr id ∧
          after.mmapRegions = system.mmapRegions ∧ after.mutex = some caller := by
  have synchronized := synchronized_of_run run
  refine ⟨⟨synchronized.registered (by rw [at_pc]; rfl), synchronized.finishing at_pc⟩,
    not_canComplete run, ?_⟩
  intro later after continued
  have synchronizedAfter := synchronized_of_run (run.trans continued)
  rcases joins_of_run run at_pc continued with ⟨stays, same⟩
  refine ⟨synchronizedAfter.unreturned id, stays, same, ?_⟩
  apply (synchronizedAfter.owner caller).mp
  rw [stays]
  rfl

end Join

theorem sample_joins (prot : BitVec 32) :
    ∃ (past : History (MmapProcess Unit Unit) (MmapAction Unit Unit))
      (system : MmapProcess Unit Unit),
      Run (step (sampleMappings prot)) (initial sampleMemory) past system ∧
        system.caller () = .munmapJoin 0x100000 () := by
  rcases sample_mapped prot with ⟨after, comes, mapped⟩
  have registered : after.mmapRegions 0x100000 = some () := by
    rw [mapped.mmapRegions]
    exact Function.update_self _ _ _
  rcases comes.joins registered mapped.mutex 0x4000 sampleMemory with ⟨joined, ⟨past, run⟩, _⟩
  exact ⟨past, _, run, by simp [goto]⟩

/-- A region of four pages is mapped and unmapped. -/
theorem munmap_blocks_on_sample :
    ∃ (past : History (MmapProcess Unit Unit) (MmapAction Unit Unit))
      (system : MmapProcess Unit Unit),
      Run (step (sampleMappings 3)) (initial sampleMemory) past system ∧
        system.caller () = .munmapJoin 0x100000 () ∧ system.mutex = some () ∧
        ¬CanComplete (sampleMappings 3) system () 0x100000 () := by
  rcases sample_joins 3 with ⟨past, system, run, at_pc⟩
  rcases munmap_never_completes run at_pc with ⟨_, never, always⟩
  exact ⟨past, system, run, at_pc, (always [] system Run.start).2.2.2, never⟩

/-- The handler of the only region does not return. -/
theorem join_waits_forever :
    ¬∀ (past : History (MmapProcess Unit Unit) (MmapAction Unit Unit))
      (system : MmapProcess Unit Unit),
      Run (step (sampleMappings 3)) (initial sampleMemory) past system →
        ∀ (caller : Unit) (addr : ℕ) (id : Unit), system.caller caller = .munmapJoin addr id →
          CanComplete (sampleMappings 3) system caller addr id := by
  intro always
  rcases sample_joins 3 with ⟨past, system, run, at_pc⟩
  exact not_canComplete run (always past system run () 0x100000 () at_pc)

end MmapProcess

end UserLevelMmap.FaultHandler
