import UserLevelMmap.Library.Accounting
import UserLevelMmap.MemoryPool.Window

/-!
# Progress of the swap loops

`allocate` and `deallocate` each have a loop that loads the head of a list and ends with a
successful compare-and-swap of this head. A compare-and-swap that does not fail spuriously
fails because the head has changed since it was loaded, so another thread has succeeded on
the same list in between. Counted over a whole run, a thread cannot fail more often than
other threads succeed on the list it is at, and the steps that it spends in its loops are
bounded by the loops it enters, these successes and its spurious failures.
-/

namespace UserLevelMmap.MemoryPool

variable {Thread : Type}

/-- The list on which the loop of a thread works. -/
def Pc.list (cfg : Config Thread) : Pc → Option ℕ
  | .loadHead i => some i
  | .loadNext i _ => some i
  | .popCas i _ _ => some i
  | .pushLoad page => some (cfg.poolIdx page)
  | .pushStore page _ => some (cfg.poolIdx page)
  | .pushCas page _ => some (cfg.poolIdx page)
  | _ => none

/-- The head that the compare-and-swap of a loop is going to expect. -/
def Pc.expected : Pc → Option Addr
  | .loadNext _ page => some page
  | .popCas _ page _ => some page
  | .pushStore _ expected => some expected
  | .pushCas _ expected => some expected
  | _ => none

/-- The thread and the list of a successful compare-and-swap. -/
def Event.swap : Event Thread → Option (Thread × ℕ)
  | .loadsHead _ _ => none
  | .pops thread i _ _ => some (thread, i)
  | .pushes thread i _ => some (thread, i)

/-- The thread that an action is of. -/
def Action.actor : Action Thread → Thread
  | .callAllocate thread => thread
  | .callDeallocate thread _ => thread
  | .tick thread => thread
  | .spuriousFailure thread => thread
  | .overwrite thread _ _ => thread

section Charges

variable [DecidableEq Thread] (cfg : Config Thread) (thread : Thread)

/-- The head has changed since the thread loaded it. -/
def stale (pool : MemoryPool Thread) : ℕ :=
  match (pool.pc thread).list cfg, (pool.pc thread).expected with
  | some i, some head => if pool.localPools i = head then 0 else 1
  | _, _ => 0

/-- Another thread succeeds on the list at which the thread is. -/
def contends (pool : MemoryPool Thread) (action : Action Thread) : ℕ :=
  match (event cfg pool action).bind Event.swap, (pool.pc thread).list cfg with
  | some (other, i), some j => if other ≠ thread ∧ i = j then 1 else 0
  | _, _ => 0

/-- The compare-and-swap of the thread fails because it finds another head. -/
def fails (pool : MemoryPool Thread) (action : Action Thread) : ℕ :=
  if action = .tick thread ∧ (pool.pc thread).isCas then stale cfg thread pool else 0

/-- The compare-and-swap of the thread fails spuriously. -/
def failsSpuriously (_ : MemoryPool Thread) (action : Action Thread) : ℕ :=
  if action = .spuriousFailure thread then 1 else 0

/-- A step of the thread inside one of its loops. -/
def loops (pool : MemoryPool Thread) (action : Action Thread) : ℕ :=
  if (action = .tick thread ∨ action = .spuriousFailure thread) ∧
      ((pool.pc thread).list cfg).isSome then 1 else 0

/-- The thread enters one of its loops. -/
def enters (pool : MemoryPool Thread) (action : Action Thread) : ℕ :=
  match step cfg pool action with
  | some after =>
      if ((pool.pc thread).list cfg).isNone ∧ ((after.pc thread).list cfg).isSome then 1 else 0
  | none => 0

/-- The steps to the next compare-and-swap, and one more round when it is bound to fail. -/
def remaining (pool : MemoryPool Thread) : ℕ :=
  match pool.pc thread with
  | .loadHead _ => 3
  | .loadNext _ _ => 2 + 3 * stale cfg thread pool
  | .popCas _ _ _ => 1 + 3 * stale cfg thread pool
  | .pushLoad _ => 3
  | .pushStore _ _ => 2 + 3 * stale cfg thread pool
  | .pushCas _ _ => 1 + 3 * stale cfg thread pool
  | _ => 0

end Charges

/-- The actor of a successful compare-and-swap. -/
theorem event_eq_tick {cfg : Config Thread} {pool : MemoryPool Thread} {action : Action Thread}
    {occurs : Event Thread} (happens : event cfg pool action = some occurs) :
    ∃ actor, action = .tick actor ∧
      ∀ {other : Thread} {i : ℕ}, occurs.swap = some (other, i) → other = actor := by
  rcases event_eq_some happens with
    ⟨actor, rfl, ⟨i, rfl, _⟩ | ⟨i, page, next, rfl, _⟩ | ⟨page, expected, rfl, _⟩⟩
  all_goals
    refine ⟨actor, rfl, ?_⟩
    intro other j isSwap
    simp only [Event.swap, Option.some.injEq, Prod.mk.injEq, reduceCtorEq] at isSwap
  · exact isSwap.1.symm
  · exact isSwap.1.symm

variable [DecidableEq Thread] {cfg : Config Thread} {thread : Thread}
  {before after : MemoryPool Thread} {action : Action Thread}

omit [DecidableEq Thread] in
theorem stale_le_one (pool : MemoryPool Thread) : stale cfg thread pool ≤ 1 := by
  unfold stale
  split
  · split_ifs <;> omega
  · omega

theorem enters_eq (stepped : step cfg before action = some after) :
    enters cfg thread before action =
      if ((before.pc thread).list cfg).isNone ∧ ((after.pc thread).list cfg).isSome
      then 1 else 0 := by
  simp only [enters, stepped]

/-! ## Steps of other threads -/

theorem pc_of_other (stepped : step cfg before action = some after)
    (isOther : action.actor ≠ thread) : after.pc thread = before.pc thread := by
  cases action with
  | callAllocate actor =>
      simp only [step, Option.ite_none_right_eq_some, Option.some.injEq] at stepped
      rcases stepped with ⟨_, rfl⟩
      exact Function.update_of_ne isOther.symm _ _
  | callDeallocate actor page =>
      simp only [step, Option.ite_none_right_eq_some] at stepped
      rcases stepped with ⟨_, stepped⟩
      split at stepped
      · simp only [Option.some.injEq] at stepped
        rw [stepped]
      · simp only [Option.ite_none_right_eq_some, Option.some.injEq] at stepped
        rcases stepped with ⟨_, rfl⟩
        exact Function.update_of_ne isOther.symm _ _
  | tick actor =>
      rcases advance_follows stepped with ⟨pc, moved, _⟩
      rw [moved]
      exact Function.update_of_ne isOther.symm _ _
  | spuriousFailure actor =>
      simp only [step, Option.ite_none_right_eq_some] at stepped
      rcases advance_retries stepped.1 stepped.2 with ⟨pc, rfl, _⟩
      exact Function.update_of_ne isOther.symm _ _
  | overwrite actor page word =>
      simp only [step, Option.ite_none_right_eq_some, Option.some.injEq] at stepped
      rcases stepped with ⟨_, rfl⟩
      rfl

/-- A head changes by a successful compare-and-swap only. -/
theorem head_eq_or_swap (stepped : step cfg before action = some after) (i : ℕ) :
    after.localPools i = before.localPools i ∨
      (event cfg before action).bind Event.swap = some (action.actor, i) := by
  have actor_eq : ∀ {occurs : Event Thread} {actor : Thread} {j : ℕ},
      event cfg before action = some occurs → occurs.swap = some (actor, j) →
        actor = action.actor := by
    intro occurs actor j happens isSwap
    rcases event_eq_tick happens with ⟨ticking, rfl, swapper⟩
    exact swapper isSwap
  cases step_effect stepped with
  | quiet heads links owners casOld noCas => exact Or.inl (by rw [heads])
  | overwritten actor page word holds noCas result => exact Or.inl (by rw [result])
  | prepared actor page expected at_pc noCas result => exact Or.inl (by rw [result])
  | popped actor j page next at_pc head_eq happens result =>
      by_cases isList : i = j
      · subst i
        have same := actor_eq happens rfl
        exact Or.inr (by rw [happens, ← same]; rfl)
      · exact Or.inl (by simp [result, isList])
  | pushed actor page expected at_pc head_eq happens result =>
      by_cases isList : i = cfg.poolIdx page
      · subst i
        have same := actor_eq happens rfl
        exact Or.inr (by rw [happens, ← same]; rfl)
      · exact Or.inl (by simp [result, isList])

theorem stale_of_other (stepped : step cfg before action = some after)
    (isOther : action.actor ≠ thread) :
    stale cfg thread after ≤ contends cfg thread before action + stale cfg thread before := by
  have same := pc_of_other stepped isOther
  cases isList : (before.pc thread).list cfg with
  | none => simp [stale, same, isList]
  | some i =>
      rcases head_eq_or_swap stepped i with kept | swapped
      · have unchanged : stale cfg thread after = stale cfg thread before := by
          simp only [stale, same, isList]
          cases (before.pc thread).expected with
          | none => rfl
          | some head => simp only [kept]
        omega
      · have charged : contends cfg thread before action = 1 := by
          simp [contends, swapped, isList, isOther]
        have bound : stale cfg thread after ≤ 1 := stale_le_one after
        omega

theorem remaining_of_other (stepped : step cfg before action = some after)
    (isOther : action.actor ≠ thread) :
    remaining cfg thread after ≤
      3 * contends cfg thread before action + remaining cfg thread before := by
  have same := pc_of_other stepped isOther
  have more := stale_of_other stepped isOther
  unfold remaining
  rw [same]
  split <;> omega

/-! ## Steps of the thread itself -/

omit [DecidableEq Thread] in
theorem expected_richestLoop (cfg : Config Thread) (pool richest : ℕ) (maxRemain : Counter)
    (hasPage : Bool) : (cfg.richestLoop pool richest maxRemain hasPage).expected = none := by
  rcases richestLoop_cases cfg pool richest maxRemain hasPage with
    ⟨_, eq⟩ | eq | ⟨_, _, eq⟩ | eq <;> simp [eq, Pc.expected]

omit [DecidableEq Thread] in
/-- No loop is entered with a head already loaded. -/
theorem Follows.expected_of_outside {pool : MemoryPool Thread} {old new : Pc}
    (follows : Follows cfg pool old new) (outside : old.list cfg = none) :
    new.expected = none := by
  cases follows with
  | nothingTaken i => exact expected_richestLoop cfg 0 0 0 false
  | notRicher i richest maxRemain hasPage notMore =>
      exact expected_richestLoop cfg (i + 1) richest maxRemain hasPage
  | maxRead i => exact expected_richestLoop cfg (i + 1) i _ true
  | headLoaded i notNull => simp [Pc.list] at outside
  | nextLoaded i page => simp [Pc.list] at outside
  | expectedLoaded page => simp [Pc.list] at outside
  | nextStored page expected => simp [Pc.list] at outside
  | _ => rfl

/-- A thread outside of its loops owes the steps of the loop that it enters. -/
theorem outside_charges (stepped : step cfg before (.tick thread) = some after)
    (outside : (before.pc thread).list cfg = none) :
    fails cfg thread before (.tick thread) + stale cfg thread after ≤ stale cfg thread before ∧
      loops cfg thread before (.tick thread) + remaining cfg thread after ≤
        3 * enters cfg thread before (.tick thread) + remaining cfg thread before := by
  have notCas : (before.pc thread).isCas = false := by
    cases at_pc : before.pc thread with
    | _ => simp_all [Pc.list, Pc.isCas]
  have notLoaded : (after.pc thread).expected = none := by
    rcases advance_follows stepped with ⟨pc, moved, follows⟩
    rw [moved, Function.update_self]
    exact follows.expected_of_outside outside
  have notStale : stale cfg thread after = 0 := by
    simp only [stale, notLoaded]
    split <;> simp_all
  rw [enters_eq stepped]
  constructor
  · simp [fails, notCas, notStale]
  · unfold remaining
    cases at_pc : after.pc thread with
    | _ => simp_all [loops, Pc.list, Pc.expected]

theorem tick_charges (stepped : step cfg before (.tick thread) = some after) :
    fails cfg thread before (.tick thread) + stale cfg thread after ≤ stale cfg thread before ∧
      loops cfg thread before (.tick thread) + remaining cfg thread after ≤
        3 * enters cfg thread before (.tick thread) + remaining cfg thread before := by
  by_cases outside : (before.pc thread).list cfg = none
  · exact outside_charges stepped outside
  · rw [enters_eq stepped]
    cases at_pc : before.pc thread with
    | loadHead i =>
        simp only [step, advance, at_pc, Option.some.injEq] at stepped
        subst after
        by_cases isNull : before.localPools i = 0
        · simp [fails, loops, stale, remaining, at_pc, Pc.isCas, Pc.list, Pc.expected, goto, isNull]
        · simp [fails, loops, stale, remaining, at_pc, Pc.isCas, Pc.list, Pc.expected, goto, isNull]
    | loadNext i page =>
        simp only [step, advance, at_pc, Option.some.injEq] at stepped
        subst after
        by_cases isHead : before.localPools i = page
        · simp [fails, loops, stale, remaining, at_pc, Pc.isCas, Pc.list, Pc.expected, goto, isHead]
        · simp [fails, loops, stale, remaining, at_pc, Pc.isCas, Pc.list, Pc.expected, goto, isHead]
    | popCas i page next =>
        simp only [step, advance, at_pc, and_true] at stepped
        split_ifs at stepped with isHead
        · rw [Option.some.injEq] at stepped
          subst after
          simp [fails, loops, stale, remaining, at_pc, Pc.isCas, Pc.list, Pc.expected, isHead]
        · rw [Option.some.injEq] at stepped
          subst after
          simp [fails, loops, stale, remaining, at_pc, Pc.isCas, Pc.list, Pc.expected, goto, isHead]
    | pushLoad page =>
        simp only [step, advance, at_pc, Option.some.injEq] at stepped
        subst after
        simp [fails, loops, stale, remaining, at_pc, Pc.isCas, Pc.list, Pc.expected, goto]
    | pushStore page expected =>
        simp only [step, advance, at_pc, Option.some.injEq] at stepped
        subst after
        by_cases isHead : before.localPools (cfg.poolIdx page) = expected
        · simp [fails, loops, stale, remaining, at_pc, Pc.isCas, Pc.list, Pc.expected, isHead]
        · simp [fails, loops, stale, remaining, at_pc, Pc.isCas, Pc.list, Pc.expected, isHead]
    | pushCas page expected =>
        simp only [step, advance, at_pc, and_true] at stepped
        split_ifs at stepped with isHead
        · rw [Option.some.injEq] at stepped
          subst after
          simp [fails, loops, stale, remaining, at_pc, Pc.isCas, Pc.list, Pc.expected, isHead]
        · rw [Option.some.injEq] at stepped
          subst after
          simp [fails, loops, stale, remaining, at_pc, Pc.isCas, Pc.list, Pc.expected, goto, isHead]
    | _ => simp [at_pc, Pc.list] at outside

theorem call_charges (isCall : action = .callAllocate thread ∨
      ∃ page, action = .callDeallocate thread page)
    (stepped : step cfg before action = some after) :
    stale cfg thread after ≤ stale cfg thread before ∧
      remaining cfg thread after ≤
        3 * enters cfg thread before action + remaining cfg thread before := by
  rw [enters_eq stepped]
  rcases isCall with rfl | ⟨page, rfl⟩
  · simp only [step, Option.ite_none_right_eq_some, Option.some.injEq] at stepped
    rcases stepped with ⟨isIdle, rfl⟩
    simp [stale, remaining, isIdle, Pc.list, Pc.expected, goto]
  · simp only [step, Option.ite_none_right_eq_some] at stepped
    rcases stepped with ⟨isIdle, stepped⟩
    split at stepped
    · rw [Option.some.injEq] at stepped
      rw [stepped]
      omega
    · simp only [Option.ite_none_right_eq_some, Option.some.injEq] at stepped
      rcases stepped with ⟨_, rfl⟩
      simp [stale, remaining, isIdle, Pc.list, Pc.expected]

theorem spurious_charges (stepped : step cfg before (.spuriousFailure thread) = some after) :
    stale cfg thread after = 0 ∧
      loops cfg thread before (.spuriousFailure thread) + remaining cfg thread after ≤
        3 + remaining cfg thread before := by
  simp only [step, Option.ite_none_right_eq_some] at stepped
  rcases advance_retries stepped.1 stepped.2 with ⟨pc, rfl, retries⟩
  cases at_pc : before.pc thread with
  | popCas i page next =>
      rw [at_pc] at retries
      cases retries
      simp [loops, stale, remaining, at_pc, Pc.list, Pc.expected, goto]
      omega
  | pushCas page expected =>
      rw [at_pc] at retries
      cases retries
      simp [loops, stale, remaining, at_pc, Pc.list, Pc.expected, goto]
      omega
  | _ => simp [at_pc, Pc.isCas] at stepped

/-! ## Whole runs -/

/-- What a step of any thread costs the given one, and what covers it. -/
theorem step_charges (stepped : step cfg before action = some after) :
    fails cfg thread before action + stale cfg thread after ≤
        contends cfg thread before action + stale cfg thread before ∧
      loops cfg thread before action + remaining cfg thread after ≤
        3 * (contends cfg thread before action + failsSpuriously thread before action +
          enters cfg thread before action) + remaining cfg thread before := by
  by_cases isOther : action.actor = thread
  · subst thread
    cases action with
    | callAllocate actor =>
        have charges := call_charges (Or.inl rfl) stepped
        simp only [fails, loops, Action.actor, reduceCtorEq, false_and, false_or, if_false] at *
        omega
    | callDeallocate actor page =>
        have charges := call_charges (Or.inr ⟨page, rfl⟩) stepped
        simp only [fails, loops, Action.actor, reduceCtorEq, false_and, false_or, if_false] at *
        omega
    | tick actor =>
        have charges := tick_charges stepped
        simp only [Action.actor] at *
        omega
    | spuriousFailure actor =>
        have charges := spurious_charges stepped
        simp only [fails, failsSpuriously, Action.actor, reduceCtorEq, false_and, if_false,
          if_true] at *
        omega
    | overwrite actor page word =>
        simp only [step, Option.ite_none_right_eq_some, Option.some.injEq] at stepped
        rcases stepped with ⟨_, rfl⟩
        have sameStale : stale cfg actor
            { before with next := Function.update before.next page word } =
              stale cfg actor before := rfl
        have sameRemaining : remaining cfg actor
            { before with next := Function.update before.next page word } =
              remaining cfg actor before := rfl
        simp only [fails, loops, Action.actor, reduceCtorEq, false_and, false_or, if_false]
        omega
  · have moreStale := stale_of_other stepped isOther
    have moreRemaining := remaining_of_other stepped isOther
    have notFails : fails cfg thread before action = 0 := by
      apply if_neg
      rintro ⟨rfl, _⟩
      exact isOther rfl
    have notLoops : loops cfg thread before action = 0 := by
      apply if_neg
      rintro ⟨rfl | rfl, _⟩
      · exact isOther rfl
      · exact isOther rfl
    omega

/-- Lock freedom, counted over any run from idle threads. A thread finds a changed head at
most as often as other threads succeed on the list that it is at, and it spends at most three
steps in its loops for each loop that it enters, each such success and each spurious failure. -/
theorem loops_make_progress {start pool : MemoryPool Thread}
    (idle : ∀ thread, start.pc thread = .idle)
    {past : History (MemoryPool Thread) (Action Thread)} (run : Run (step cfg) start past pool)
    (thread : Thread) :
    total (fails cfg thread) past ≤ total (contends cfg thread) past ∧
      total (loops cfg thread) past ≤
        3 * (total (contends cfg thread) past + total (failsSpuriously thread) past +
          total (enters cfg thread) past) := by
  have noStale : stale cfg thread start = 0 := by simp [stale, idle, Pc.list]
  have noRemaining : remaining cfg thread start = 0 := by simp [remaining, idle]
  have failures := run.total_le (fails cfg thread) (contends cfg thread) (stale cfg thread)
    (fun stepped => (step_charges stepped).1)
  have steps := run.total_le (loops cfg thread)
    (fun pool action => 3 * (contends cfg thread pool action +
      failsSpuriously thread pool action + enters cfg thread pool action))
    (remaining cfg thread) (fun stepped => (step_charges stepped).2)
  rw [total_mul, total_add, total_add] at steps
  omega

/-- Thread `1` takes the page that thread `0` has loaded, and thread `0` goes round again. -/
theorem progress_after_contention :
    ∃ past pool, Run (step onePool) (construct onePool [4096, 8192]) past pool ∧
      total (fails onePool 0) past = 1 ∧ total (loops onePool 0) past = 6 ∧
      total (loops onePool 0) past ≤
        3 * (total (contends onePool 0) past + total (failsSpuriously 0) past +
          total (enters onePool 0) past) := by
  have ran := Run.exists_of_perform (step onePool) (construct onePool [4096, 8192])
    [.callAllocate 0, .callAllocate 1, .tick 0, .tick 1, .tick 0, .tick 1, .tick 1, .tick 0,
      .tick 0, .tick 0, .tick 0]
    (fun past _ => total (fails onePool 0) past = 1 && total (loops onePool 0) past = 6)
    (by decide +kernel)
  rcases ran with ⟨past, pool, run, checked⟩
  simp only [Bool.and_eq_true, decide_eq_true_eq] at checked
  have built := construct_built onePool_aligned
  exact ⟨past, pool, run, checked.1, checked.2, (loops_make_progress built.idle run 0).2⟩

end UserLevelMmap.MemoryPool
