import UserLevelMmap.Library.Simulation
import UserLevelMmap.MemoryPool.Counters

/-!
# The pool as atomic stacks

What a pool is for: a stack of pages for every pool index, from which a call takes a page
and to which a call gives one at a single moment between its start and its return. `Stacks`
is this abstract object with the calls in progress. In every run whose pops install what
`page->next` still holds, the successful compare-and-swaps and the loads of a null head are
these moments: together with the starts and the returns of the calls they are a run of the
stacks, so the pool is linearizable and each list is last in, first out.
-/

namespace UserLevelMmap.MemoryPool

/-! ## The abstract object -/

/-- A call as its caller sees it. -/
inductive Phase where
  | outside
  /-- Inside `allocate`, with or without an empty stack found. -/
  | allocating (foundEmpty : Bool)
  | took (page : Addr)
  | giving (page : Addr)
  | gave
  deriving DecidableEq, Repr

structure Stacks (Thread : Type) where
  free : ℕ → List Addr
  phase : Thread → Phase
  held : Thread → List Addr

/-- The moments of the calls. -/
inductive Moment (Thread : Type) where
  | allocate (thread : Thread)
  | take (thread : Thread) (pool : ℕ) (page : Addr)
  | findEmpty (thread : Thread) (pool : ℕ)
  | returns (thread : Thread) (page : Addr)
  | deallocate (thread : Thread) (page : Addr)
  | give (thread : Thread) (page : Addr)
  | finish (thread : Thread)
  deriving DecidableEq, Repr

variable {Thread : Type} [DecidableEq Thread]

/-- The moments that the stacks allow, and what they do. -/
def Stacks.step (cfg : Config Thread) : Transition (Stacks Thread) (Moment Thread)
  | object, .allocate thread =>
      if object.phase thread = .outside then
        some { object with phase := Function.update object.phase thread (.allocating false) }
      else
        none
  | object, .take thread i page =>
      match object.phase thread, object.free i with
      | .allocating _, first :: rest =>
          if first = page then
            some { object with
              free := Function.update object.free i rest
              phase := Function.update object.phase thread (.took page) }
          else
            none
      | _, _ => none
  | object, .findEmpty thread i =>
      match object.phase thread, object.free i with
      | .allocating _, [] =>
          some { object with phase := Function.update object.phase thread (.allocating true) }
      | _, _ => none
  | object, .returns thread page =>
      if page = 0 then
        if object.phase thread = .allocating true then
          some { object with phase := Function.update object.phase thread .outside }
        else
          none
      else if object.phase thread = .took page then
        some { object with
          phase := Function.update object.phase thread .outside
          held := Function.update object.held thread (page :: object.held thread) }
      else
        none
  | object, .deallocate thread page =>
      if object.phase thread = .outside then
        if page = 0 then some object
        else if page ∈ object.held thread then
          some { object with
            phase := Function.update object.phase thread (.giving page)
            held := Function.update object.held thread ((object.held thread).erase page) }
        else
          none
      else
        none
  | object, .give thread page =>
      if object.phase thread = .giving page then
        some { object with
          free := Function.update object.free (cfg.poolIdx page)
            (page :: object.free (cfg.poolIdx page))
          phase := Function.update object.phase thread .gave }
      else
        none
  | object, .finish thread =>
      if object.phase thread = .gave then
        some { object with phase := Function.update object.phase thread .outside }
      else
        none

/-- The stacks after construction. -/
def Stacks.construct (cfg : Config Thread) (pages : List Addr) : Stacks Thread where
  free := initialFree cfg pages
  phase _ := .outside
  held _ := []

/-! ## The moments of a run -/

/-- The moment that a step of the pool is, if any. -/
def moment (cfg : Config Thread) (pool : MemoryPool Thread) :
    Action Thread → Option (Moment Thread)
  | .callAllocate thread => some (.allocate thread)
  | .callDeallocate thread page => some (.deallocate thread page)
  | .tick thread =>
      match pool.pc thread with
      | .loadHead i => if pool.localPools i = 0 then some (.findEmpty thread i) else none
      | .popCas i page _ =>
          if pool.localPools i = page then some (.take thread i page) else none
      | .returnPage page => some (.returns thread page)
      | .pushCas page expected =>
          if pool.localPools (cfg.poolIdx page) = expected then some (.give thread page) else none
      | .increment _ => some (.finish thread)
      | _ => none
  | .spuriousFailure _ => none
  | .overwrite .. => none

/-- The phase of a call whose thread has reached the given step. -/
def Pc.InPhase (phase : Phase) : Pc → Prop
  | .idle => phase = .outside
  | .loadHead _ => ∃ foundEmpty, phase = .allocating foundEmpty
  | .loadNext _ _ => ∃ foundEmpty, phase = .allocating foundEmpty
  | .popCas _ _ _ => ∃ foundEmpty, phase = .allocating foundEmpty
  | .decrement _ page => phase = if page = 0 then .allocating true else .took page
  | .richestTest _ _ _ _ => phase = .allocating true
  | .richestMax _ => phase = .allocating true
  | .returnPage page => phase = if page = 0 then .allocating true else .took page
  | .pushLoad page => phase = .giving page
  | .pushStore page _ => phase = .giving page
  | .pushCas page _ => phase = .giving page
  | .increment _ => phase = .gave
  | .outOfBounds => phase = .allocating true

omit [DecidableEq Thread] in
theorem inPhase_richestLoop (cfg : Config Thread) (pool richest : ℕ) (maxRemain : Counter)
    (hasPage : Bool) :
    (cfg.richestLoop pool richest maxRemain hasPage).InPhase (.allocating true) := by
  rcases richestLoop_cases cfg pool richest maxRemain hasPage with
    ⟨_, eq⟩ | eq | ⟨_, _, eq⟩ | eq <;> simp [eq, Pc.InPhase]

/-- The pool represents the stacks. -/
structure Represents (pool : MemoryPool Thread) (object : Stacks Thread) : Prop where
  tracks : Tracks pool object.free
  phases : ∀ thread, (pool.pc thread).InPhase (object.phase thread)
  held : pool.held = object.held

omit [DecidableEq Thread] in
theorem Built.represents {cfg : Config Thread} {pages : List Addr} {pool : MemoryPool Thread}
    (built : Built cfg pages pool) (nodup : pages.Nodup) :
    Represents pool (Stacks.construct cfg pages) where
  tracks := built.tracks nodup
  phases thread := by simp [built.idle, Pc.InPhase, Stacks.construct]
  held := funext built.nothingHeld

namespace Change

omit [DecidableEq Thread]

variable {cfg : Config Thread} {before after : MemoryPool Thread} {action : Action Thread}
  {free free' : ℕ → List Addr}

theorem lists_of_pops (change : Change cfg before action after free free')
    (fresh : PopsFresh cfg before action) {thread : Thread} {i : ℕ} {page next : Addr}
    (happens : event cfg before action = some (.pops thread i page next)) :
    ∃ rest, free i = page :: rest ∧ free' = Function.update free i rest := by
  cases change with
  | stay noCas lists owners => simp [NoListEvent, happens] at noCas
  | taken taker k taken lost happened listed lists kept owner owners =>
      rcases happened with ⟨installed, happened⟩
      rw [happens, Option.some.injEq, Event.pops.injEq] at happened
      rcases happened with ⟨rfl, rfl, rfl, rfl⟩
      refine ⟨free' i, by simpa [kept fresh] using listed, ?_⟩
      funext j
      by_cases isPool : j = i
      · simp [isPool]
      · simp [isPool, lists j isPool]
  | given giver given happened listed lists owner owners => simp [happens] at happened

theorem lists_of_pushes (change : Change cfg before action after free free')
    {thread : Thread} {i : ℕ} {page : Addr}
    (happens : event cfg before action = some (.pushes thread i page)) :
    free' = Function.update free i (page :: free i) := by
  cases change with
  | stay noCas lists owners => simp [NoListEvent, happens] at noCas
  | taken taker k taken lost happened listed lists kept owner owners =>
      rcases happened with ⟨installed, happened⟩
      simp [happens] at happened
  | given giver given happened listed lists owner owners =>
      rw [happens, Option.some.injEq, Event.pushes.injEq] at happened
      rcases happened with ⟨rfl, rfl, rfl⟩
      funext j
      by_cases isPool : j = cfg.poolIdx page
      · simp [isPool, listed]
      · simp [isPool, lists j isPool]

end Change

namespace Represents

variable {cfg : Config Thread} {before after : MemoryPool Thread} {action : Action Thread}
  {object : Stacks Thread} {free' : ℕ → List Addr} {thread : Thread} {pc : Pc}

/-- The phases after a step that moves one thread to a phase of its own. -/
theorem phases_update (represents : Represents before object)
    (moved : after.pc = Function.update before.pc thread pc) {phase : Phase}
    (inPhase : pc.InPhase phase) (other : Thread) :
    (after.pc other).InPhase (Function.update object.phase thread phase other) := by
  rw [moved]
  by_cases isThread : other = thread
  · subst other
    simpa using inPhase
  · simpa [isThread] using represents.phases other

/-- A step that is no moment of a call keeps the represented object. -/
theorem stay (represents : Represents before object) (tracks : Tracks after object.free)
    (moved : after.pc = Function.update before.pc thread pc)
    (inPhase : pc.InPhase (object.phase thread)) (held : after.held = before.held) :
    Represents after object where
  tracks := tracks
  phases := by
    have phases := represents.phases_update moved inPhase
    rwa [Function.update_eq_self] at phases
  held := held.trans represents.held

theorem answers_tick (represents : Represents before object)
    (fresh : PopsFresh cfg before (.tick thread))
    (stepped : step cfg before (.tick thread) = some after)
    (change : Change cfg before (.tick thread) after object.free free')
    (tracks : Tracks after free') :
    Answers (Stacks.step cfg) (Represents after) object (moment cfg before (.tick thread)) := by
  have phase := represents.phases thread
  have quiet : NoListEvent cfg before (.tick thread) → free' = object.free := change.lists_eq
  cases at_pc : before.pc thread with
  | idle => simp [step, advance, at_pc] at stepped
  | outOfBounds => simp [step, advance, at_pc] at stepped
  | loadHead i =>
      rw [quiet (by simp [NoListEvent, event, at_pc])] at tracks
      simp only [step, advance, at_pc, Option.some.injEq] at stepped
      subst after
      rw [at_pc] at phase
      by_cases isNull : before.localPools i = 0
      · have isEmpty := (represents.tracks.linked i).eq_nil_iff.mpr isNull
        rcases phase with ⟨foundEmpty, isPhase⟩
        simp only [moment, at_pc, isNull, if_true] at tracks ⊢
        refine ⟨{ object with phase := Function.update object.phase thread (.allocating true) },
          by simp [Stacks.step, isPhase, isEmpty], tracks, ?_, represents.held⟩
        apply represents.phases_update rfl
        rfl
      · simp only [moment, at_pc, isNull, if_false] at tracks ⊢
        exact represents.stay tracks rfl phase rfl
  | loadNext i page =>
      rw [quiet (by simp [NoListEvent, event, at_pc])] at tracks
      simp only [step, advance, at_pc, Option.some.injEq] at stepped
      subst after
      rw [at_pc] at phase
      simp only [moment, at_pc]
      exact represents.stay tracks rfl phase rfl
  | popCas i page next =>
      have page_ne : page ≠ 0 := by
        simpa [at_pc, Pc.LoadedPage] using represents.tracks.loaded thread
      rw [at_pc] at phase
      by_cases head_eq : before.localPools i = page
      · have happens : event cfg before (.tick thread) = some (.pops thread i page next) := by
          simp [event, at_pc, head_eq]
        rcases change.lists_of_pops fresh happens with ⟨rest, listed, rfl⟩
        rcases phase with ⟨foundEmpty, isPhase⟩
        simp only [step, advance, at_pc, head_eq, and_self, if_true, Option.some.injEq] at stepped
        subst after
        simp only [moment, at_pc, head_eq, if_true]
        refine ⟨{ object with
            free := Function.update object.free i rest
            phase := Function.update object.phase thread (.took page) },
          by simp [Stacks.step, isPhase, listed], tracks, ?_, represents.held⟩
        apply represents.phases_update rfl
        exact (if_neg page_ne).symm
      · rw [quiet (by simp [NoListEvent, event, at_pc, head_eq])] at tracks
        simp only [step, advance, at_pc, head_eq, false_and, if_false, Option.some.injEq] at stepped
        subst after
        simp only [moment, at_pc, head_eq, if_false]
        exact represents.stay tracks rfl phase rfl
  | decrement i page =>
      rw [quiet (by simp [NoListEvent, event, at_pc])] at tracks
      simp only [step, advance, at_pc, Option.some.injEq] at stepped
      subst after
      rw [at_pc] at phase
      simp only [moment, at_pc]
      refine represents.stay tracks rfl ?_ rfl
      by_cases isNull : page = 0
      · simp only [Pc.InPhase, isNull, if_true] at phase
        rw [if_pos isNull, phase]
        exact inPhase_richestLoop cfg 0 0 0 false
      · rw [if_neg isNull]
        exact phase
  | richestTest i richest maxRemain hasPage =>
      rw [quiet (by simp [NoListEvent, event, at_pc])] at tracks
      rw [at_pc] at phase
      simp only [step, advance, at_pc] at stepped
      simp only [moment, at_pc]
      split at stepped
      · simp only [Option.some.injEq] at stepped
        subst after
        exact represents.stay tracks rfl phase rfl
      · simp only [Option.some.injEq] at stepped
        subst after
        refine represents.stay tracks rfl ?_ rfl
        rw [show object.phase thread = .allocating true from phase]
        exact inPhase_richestLoop cfg _ _ _ _
  | richestMax i =>
      rw [quiet (by simp [NoListEvent, event, at_pc])] at tracks
      simp only [step, advance, at_pc, Option.some.injEq] at stepped
      subst after
      rw [at_pc] at phase
      simp only [moment, at_pc]
      refine represents.stay tracks rfl ?_ rfl
      rw [show object.phase thread = .allocating true from phase]
      exact inPhase_richestLoop cfg _ _ _ _
  | returnPage page =>
      rw [quiet (by simp [NoListEvent, event, at_pc])] at tracks
      simp only [step, advance, at_pc, Option.some.injEq] at stepped
      subst after
      rw [at_pc] at phase
      simp only [moment, at_pc]
      by_cases isNull : page = 0
      · simp only [Pc.InPhase, isNull, if_true] at phase tracks ⊢
        refine ⟨{ object with phase := Function.update object.phase thread .outside },
          by simp [Stacks.step, phase], tracks, ?_, represents.held⟩
        apply represents.phases_update rfl
        rfl
      · simp only [Pc.InPhase, isNull, if_false] at phase tracks ⊢
        refine ⟨{ object with
            phase := Function.update object.phase thread .outside
            held := Function.update object.held thread (page :: object.held thread) },
          by simp [Stacks.step, phase, isNull], tracks, ?_, by simp [represents.held]⟩
        apply represents.phases_update rfl
        rfl
  | pushLoad page =>
      rw [quiet (by simp [NoListEvent, event, at_pc])] at tracks
      simp only [step, advance, at_pc, Option.some.injEq] at stepped
      subst after
      rw [at_pc] at phase
      simp only [moment, at_pc]
      exact represents.stay tracks rfl phase rfl
  | pushStore page expected =>
      rw [quiet (by simp [NoListEvent, event, at_pc])] at tracks
      simp only [step, advance, at_pc, Option.some.injEq] at stepped
      subst after
      rw [at_pc] at phase
      simp only [moment, at_pc]
      exact represents.stay tracks rfl phase rfl
  | pushCas page expected =>
      rw [at_pc] at phase
      by_cases head_eq : before.localPools (cfg.poolIdx page) = expected
      · have happens : event cfg before (.tick thread) =
            some (.pushes thread (cfg.poolIdx page) page) := by
          simp [event, at_pc, head_eq]
        rw [change.lists_of_pushes happens] at tracks
        simp only [step, advance, at_pc, head_eq, and_self, if_true, Option.some.injEq] at stepped
        subst after
        simp only [moment, at_pc, head_eq, if_true]
        refine ⟨{ object with
            free := Function.update object.free (cfg.poolIdx page)
              (page :: object.free (cfg.poolIdx page))
            phase := Function.update object.phase thread .gave },
          if_pos phase, tracks, ?_, represents.held⟩
        apply represents.phases_update rfl
        rfl
      · rw [quiet (by simp [NoListEvent, event, at_pc, head_eq])] at tracks
        simp only [step, advance, at_pc, head_eq, false_and, if_false, Option.some.injEq] at stepped
        subst after
        simp only [moment, at_pc, head_eq, if_false]
        exact represents.stay tracks rfl phase rfl
  | increment page =>
      rw [quiet (by simp [NoListEvent, event, at_pc])] at tracks
      simp only [step, advance, at_pc, Option.some.injEq] at stepped
      subst after
      rw [at_pc] at phase
      simp only [moment, at_pc]
      refine ⟨{ object with phase := Function.update object.phase thread .outside },
        if_pos phase, tracks, ?_, represents.held⟩
      apply represents.phases_update rfl
      rfl

/-- Every step is answered by the moment that it is. -/
theorem answers (represents : Represents before object) (fresh : PopsFresh cfg before action)
    (stepped : step cfg before action = some after) :
    Answers (Stacks.step cfg) (Represents after) object (moment cfg before action) := by
  rcases represents.tracks.step fresh.behind stepped with ⟨free', change, tracks⟩
  cases action with
  | callAllocate thread =>
      rw [change.lists_eq (by simp [NoListEvent, event])] at tracks
      simp only [step, Option.ite_none_right_eq_some, Option.some.injEq] at stepped
      rcases stepped with ⟨isIdle, rfl⟩
      have phase := represents.phases thread
      rw [isIdle] at phase
      refine ⟨{ object with phase := Function.update object.phase thread (.allocating false) },
        if_pos phase, tracks, ?_, represents.held⟩
      apply represents.phases_update rfl
      exact ⟨false, rfl⟩
  | callDeallocate thread page =>
      rw [change.lists_eq (by simp [NoListEvent, event])] at tracks
      simp only [step, Option.ite_none_right_eq_some] at stepped
      rcases stepped with ⟨isIdle, stepped⟩
      have phase := represents.phases thread
      rw [isIdle] at phase
      simp only [Pc.InPhase] at phase
      split at stepped
      · next isNull =>
          simp only [Option.some.injEq] at stepped
          subst after
          refine ⟨object, ?_, represents⟩
          simp only [Stacks.step]
          rw [if_pos phase, if_pos isNull]
      · next notNull =>
          simp only [Option.ite_none_right_eq_some, Option.some.injEq] at stepped
          rcases stepped with ⟨holds, rfl⟩
          rw [represents.held] at holds
          refine ⟨{ object with
              phase := Function.update object.phase thread (.giving page)
              held := Function.update object.held thread ((object.held thread).erase page) },
            ?_, tracks, ?_, by simp [represents.held]⟩
          · simp only [Stacks.step]
            rw [if_pos phase, if_neg notNull, if_pos holds]
          · apply represents.phases_update rfl
            rfl
  | tick thread => exact represents.answers_tick fresh stepped change tracks
  | spuriousFailure thread =>
      rw [change.lists_eq (by simp [NoListEvent, event])] at tracks
      simp only [step, Option.ite_none_right_eq_some] at stepped
      rcases advance_retries stepped.1 stepped.2 with ⟨pc, rfl, retries⟩
      have phase := represents.phases thread
      refine represents.stay tracks rfl ?_ rfl
      generalize before.pc thread = old at retries phase
      cases retries with
      | pop i page next => exact phase
      | push page expected => exact phase
  | overwrite thread page word =>
      rw [change.lists_eq (by simp [NoListEvent, event])] at tracks
      simp only [step, Option.ite_none_right_eq_some, Option.some.injEq] at stepped
      rcases stepped with ⟨_, rfl⟩
      exact ⟨tracks, represents.phases, represents.held⟩

end Represents

/-- The pool is linearizable in every run whose pops install what `page->next` still holds:
the moments of its calls are a run of the stacks, which end as the free lists do. -/
theorem calls_linearize {cfg : Config Thread} {pages : List Addr}
    (aligned : AlignedPages cfg pages) {past : History (MemoryPool Thread) (Action Thread)}
    {pool : MemoryPool Thread} (run : Run (step cfg) (construct cfg pages) past pool)
    (fresh : Guarded (PopsFresh cfg) past) :
    ∃ trace object, Run (Stacks.step cfg) (Stacks.construct cfg pages) trace object ∧
      trace.map Prod.snd = labels (moment cfg) past ∧
      (∀ i, Linked pool.next 0 (pool.localPools i) (object.free i)) ∧
      (∀ thread, (pool.pc thread).InPhase (object.phase thread)) ∧
      pool.held = object.held := by
  have built := construct_built aligned
  rcases run.simulation (Stacks.step cfg) (PopsFresh cfg) (moment cfg) Represents
      (built.represents aligned.nodup)
      (fun represents allowed stepped => represents.answers allowed stepped) fresh with
    ⟨trace, object, objectRun, trace_eq, represents⟩
  exact ⟨trace, object, objectRun, trace_eq, represents.tracks.linked, represents.phases,
    represents.held⟩

/-- Two threads pop the two pages of a list, and one of them gives its page back. -/
theorem linearized_on_two_threads :
    ∃ past pool trace object, Run (step onePool) (construct onePool [4096, 8192]) past pool ∧
      Run (Stacks.step onePool) (Stacks.construct onePool [4096, 8192]) trace object ∧
      trace.map Prod.snd =
        [.give 1 8192, .deallocate 1 8192, .returns 1 8192, .take 0 0 4096, .take 1 0 8192,
          .allocate 1, .allocate 0] ∧
      trace.map Prod.snd = labels (moment onePool) past := by
  have ran := Run.exists_of_perform (step onePool) (construct onePool [4096, 8192])
    [.callAllocate 0, .callAllocate 1, .tick 0, .tick 1, .tick 0, .tick 1, .tick 1, .tick 1,
      .tick 0, .tick 0, .tick 0, .tick 0, .tick 1, .callDeallocate 1 8192, .tick 1, .tick 1,
      .tick 1]
    (fun past _ => decide (labels (moment onePool) past =
        [.give 1 8192, .deallocate 1 8192, .returns 1 8192, .take 0 0 4096, .take 1 0 8192,
          .allocate 1, .allocate 0]) && past.all (fun taken =>
      decide (PopsFresh onePool taken.1 taken.2)))
    (by decide +kernel)
  rcases ran with ⟨past, pool, run, checked⟩
  simp only [Bool.and_eq_true, decide_eq_true_eq, List.all_eq_true] at checked
  rcases calls_linearize onePool_aligned run checked.2 with
    ⟨trace, object, objectRun, trace_eq, _, _, _⟩
  exact ⟨past, pool, trace, object, run, objectRun, trace_eq.trans checked.1, trace_eq⟩

end UserLevelMmap.MemoryPool
