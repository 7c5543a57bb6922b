import Mathlib.Data.List.Perm.Basic
import UserLevelMmap.MemoryPool.Basic

/-!
# What one step does to the lists and to the owners of pages

`Effect` lists the only five things a step of the pool can do to the heads, to
the `next` words and to the pages owned by threads. Everything proved about the
free lists goes through `step_effect`; the counters are invisible at this level.
`step_thread` is the corresponding inversion for the control state of a thread.
-/

namespace UserLevelMmap.MemoryPool

variable {Thread : Type}

/-- The four places where the loop of `get_rough_richest_pool` continues. -/
theorem richestLoop_cases (cfg : Config Thread) (pool richest : ℕ) (maxRemain : Counter)
    (hasPage : Bool) :
    (pool < cfg.numPools ∧ cfg.richestLoop pool richest maxRemain hasPage =
        .richestTest pool richest maxRemain hasPage) ∨
      cfg.richestLoop pool richest maxRemain hasPage = .returnPage 0 ∨
      (∃ i < cfg.numPools, cfg.richestLoop pool richest maxRemain hasPage = .loadHead i) ∨
      cfg.richestLoop pool richest maxRemain hasPage = .outOfBounds := by
  unfold Config.richestLoop
  by_cases inside : pool < cfg.numPools
  · exact Or.inl ⟨inside, if_pos inside⟩
  · rw [if_neg inside]
    generalize (if hasPage = false then (-1 : ℤ) else toInt richest) = ret
    by_cases isNone : ret = -1
    · exact Or.inr (Or.inl (if_pos isNone))
    · by_cases inBounds : 0 ≤ ret ∧ ret < cfg.numPools
      · refine Or.inr (Or.inr (Or.inl ⟨ret.toNat, by omega, ?_⟩))
        simp only [if_neg isNone, if_pos inBounds]
      · refine Or.inr (Or.inr (Or.inr ?_))
        simp only [if_neg isNone, if_neg inBounds]

@[simp]
theorem inFlight_richestLoop (cfg : Config Thread) (pool richest : ℕ) (maxRemain : Counter)
    (hasPage : Bool) : (cfg.richestLoop pool richest maxRemain hasPage).inFlight = [] := by
  rcases richestLoop_cases cfg pool richest maxRemain hasPage with
    ⟨_, eq⟩ | eq | ⟨_, _, eq⟩ | eq <;> simp [eq]

theorem richestLoop_ne_popCas (cfg : Config Thread) (pool richest : ℕ) (maxRemain : Counter)
    (hasPage : Bool) (i : ℕ) (page next : Addr) :
    cfg.richestLoop pool richest maxRemain hasPage ≠ .popCas i page next := by
  rcases richestLoop_cases cfg pool richest maxRemain hasPage with
    ⟨_, eq⟩ | eq | ⟨_, _, eq⟩ | eq <;> simp [eq]

theorem richestLoop_ne_pushCas (cfg : Config Thread) (pool richest : ℕ) (maxRemain : Counter)
    (hasPage : Bool) (page expected : Addr) :
    cfg.richestLoop pool richest maxRemain hasPage ≠ .pushCas page expected := by
  rcases richestLoop_cases cfg pool richest maxRemain hasPage with
    ⟨_, eq⟩ | eq | ⟨_, _, eq⟩ | eq <;> simp [eq]

/-! ## The control flow of one thread -/

/-- The step to which a compare-and-swap returns when it fails spuriously. -/
inductive Retries : Pc → Pc → Prop where
  | pop (i : ℕ) (page next : Addr) : Retries (.popCas i page next) (.loadHead i)
  | push (page expected : Addr) : Retries (.pushCas page expected) (.pushLoad page)

/-- The step that follows a step of a call, with the test that selects it. -/
inductive Follows (cfg : Config Thread) (pool : MemoryPool Thread) : Pc → Pc → Prop where
  | headIsNull (i : ℕ) (isNull : pool.localPools i = 0) :
      Follows cfg pool (.loadHead i) (.decrement i 0)
  | headLoaded (i : ℕ) (notNull : pool.localPools i ≠ 0) :
      Follows cfg pool (.loadHead i) (.loadNext i (pool.localPools i))
  | nextLoaded (i : ℕ) (page : Addr) :
      Follows cfg pool (.loadNext i page) (.popCas i page (pool.next page))
  | popSucceeded (i : ℕ) (page next : Addr) (head_eq : pool.localPools i = page) :
      Follows cfg pool (.popCas i page next) (.decrement i page)
  | popFailed (i : ℕ) (page next : Addr) (head_ne : pool.localPools i ≠ page) :
      Follows cfg pool (.popCas i page next) (.loadHead i)
  | nothingTaken (i : ℕ) :
      Follows cfg pool (.decrement i 0) (cfg.richestLoop 0 0 0 false)
  | taken (i : ℕ) (page : Addr) (notNull : page ≠ 0) :
      Follows cfg pool (.decrement i page) (.returnPage page)
  | richer (i richest : ℕ) (maxRemain : Counter) (hasPage : Bool)
      (more : maxRemain < pool.localRemainPages i) :
      Follows cfg pool (.richestTest i richest maxRemain hasPage) (.richestMax i)
  | notRicher (i richest : ℕ) (maxRemain : Counter) (hasPage : Bool)
      (notMore : ¬maxRemain < pool.localRemainPages i) :
      Follows cfg pool (.richestTest i richest maxRemain hasPage)
        (cfg.richestLoop (i + 1) richest maxRemain hasPage)
  | maxRead (i : ℕ) :
      Follows cfg pool (.richestMax i)
        (cfg.richestLoop (i + 1) i (pool.localRemainPages i) true)
  | returned (page : Addr) : Follows cfg pool (.returnPage page) .idle
  | expectedLoaded (page : Addr) :
      Follows cfg pool (.pushLoad page)
        (.pushStore page (pool.localPools (cfg.poolIdx page)))
  | nextStored (page expected : Addr) :
      Follows cfg pool (.pushStore page expected) (.pushCas page expected)
  | pushSucceeded (page expected : Addr)
      (head_eq : pool.localPools (cfg.poolIdx page) = expected) :
      Follows cfg pool (.pushCas page expected) (.increment page)
  | pushFailed (page expected : Addr)
      (head_ne : pool.localPools (cfg.poolIdx page) ≠ expected) :
      Follows cfg pool (.pushCas page expected) (.pushLoad page)
  | incremented (page : Addr) : Follows cfg pool (.increment page) .idle

theorem Follows.to_popCas {cfg : Config Thread} {pool : MemoryPool Thread} {old : Pc} {i : ℕ}
    {page next : Addr} (follows : Follows cfg pool old (.popCas i page next)) :
    old = .loadNext i page ∧ next = pool.next page := by
  generalize reached : Pc.popCas i page next = pc at follows
  cases follows with
  | nextLoaded j loaded =>
      simp only [Pc.popCas.injEq] at reached
      rcases reached with ⟨rfl, rfl, rfl⟩
      exact ⟨rfl, rfl⟩
  | nothingTaken => exact (richestLoop_ne_popCas _ _ _ _ _ _ _ _ reached.symm).elim
  | notRicher => exact (richestLoop_ne_popCas _ _ _ _ _ _ _ _ reached.symm).elim
  | maxRead => exact (richestLoop_ne_popCas _ _ _ _ _ _ _ _ reached.symm).elim
  | _ => contradiction

/-! ## Inversion of a step -/

/-- The action is not a successful compare-and-swap. -/
def NoListEvent (cfg : Config Thread) (pool : MemoryPool Thread) (action : Action Thread) :
    Prop :=
  match event cfg pool action with
  | some (.pops ..) => False
  | some (.pushes ..) => False
  | _ => True

theorem noListEvent_of_notCas {cfg : Config Thread} {pool : MemoryPool Thread}
    {action : Action Thread} {thread : Thread} (notCas : (pool.pc thread).isCas = false)
    (acts : action = .tick thread ∨ action = .spuriousFailure thread) :
    NoListEvent cfg pool action := by
  rcases acts with rfl | rfl
  · unfold NoListEvent event
    cases at_pc : pool.pc thread with
    | popCas i page next => simp [at_pc, Pc.isCas] at notCas
    | pushCas page expected => simp [at_pc, Pc.isCas] at notCas
    | _ => simp only [at_pc]
  · simp [NoListEvent, event]

variable [DecidableEq Thread]

/-- The memory effect of one step. -/
inductive Effect (cfg : Config Thread) (before : MemoryPool Thread) (action : Action Thread)
    (after : MemoryPool Thread) : Prop where
  /-- The lists and the owners stay; the threads move between steps. -/
  | quiet (heads : after.localPools = before.localPools) (links : after.next = before.next)
      (owners : ∀ thread, (after.owned thread).Perm (before.owned thread))
      (casOld : ∀ thread page expected, after.pc thread = .pushCas page expected →
        before.pc thread = .pushCas page expected)
      (noCas : NoListEvent cfg before action)
  /-- A holder writes to a page. -/
  | overwritten (thread : Thread) (page word : Addr) (holds : page ∈ before.held thread)
      (noCas : NoListEvent cfg before action)
      (result : after = { before with next := Function.update before.next page word })
  /-- `deallocate` prepares the page it is going to push. -/
  | prepared (thread : Thread) (page expected : Addr)
      (at_pc : before.pc thread = .pushStore page expected)
      (noCas : NoListEvent cfg before action)
      (result : after = { before with
        next := Function.update before.next page expected
        pc := Function.update before.pc thread (.pushCas page expected) })
  /-- The compare-and-swap of `allocate` succeeds. -/
  | popped (thread : Thread) (pool : ℕ) (page next : Addr)
      (at_pc : before.pc thread = .popCas pool page next)
      (head_eq : before.localPools pool = page)
      (happens : event cfg before action = some (.pops thread pool page next))
      (result : after = { before with
        localPools := Function.update before.localPools pool next
        pc := Function.update before.pc thread (.decrement pool page) })
  /-- The compare-and-swap of `deallocate` succeeds. -/
  | pushed (thread : Thread) (page expected : Addr)
      (at_pc : before.pc thread = .pushCas page expected)
      (head_eq : before.localPools (cfg.poolIdx page) = expected)
      (happens : event cfg before action = some (.pushes thread (cfg.poolIdx page) page))
      (result : after = { before with
        localPools := Function.update before.localPools (cfg.poolIdx page) page
        pc := Function.update before.pc thread (.increment page) })

theorem Effect.of_move {cfg : Config Thread} {before after : MemoryPool Thread}
    {action : Action Thread} (thread : Thread) {pc : Pc}
    (heads : after.localPools = before.localPools) (links : after.next = before.next)
    (moved : after.pc = Function.update before.pc thread pc)
    (others : ∀ other, other ≠ thread → after.held other = before.held other)
    (same : (pc.inFlight ++ after.held thread).Perm (before.owned thread))
    (not_cas : ∀ page expected, pc ≠ .pushCas page expected)
    (noCas : NoListEvent cfg before action) :
    Effect cfg before action after := by
  refine .quiet heads links ?_ ?_ noCas
  · intro other
    by_cases isThread : other = thread
    · subst other
      simpa [owned, moved] using same
    · simp [owned, moved, isThread, others other isThread]
  · intro other page expected at_pc
    by_cases isThread : other = thread
    · subst other
      simp only [moved, Function.update_self] at at_pc
      exact absurd at_pc (not_cas page expected)
    · simpa [moved, isThread] using at_pc

theorem Effect.of_goto {cfg : Config Thread} {pool : MemoryPool Thread}
    {action : Action Thread} {thread : Thread} {pc : Pc}
    (same : pc.inFlight = (pool.pc thread).inFlight)
    (not_cas : ∀ page expected, pc ≠ .pushCas page expected)
    (noCas : NoListEvent cfg pool action) :
    Effect cfg pool action (pool.goto thread pc) :=
  .of_move thread rfl rfl rfl (fun _ _ => rfl) (by simp [owned, same, goto])
    not_cas noCas

theorem advance_effect {cfg : Config Thread} {before after : MemoryPool Thread}
    {action : Action Thread} {thread : Thread} {weakFails : Bool}
    (acts : action = if weakFails then .spuriousFailure thread else .tick thread)
    (advanced : advance cfg before thread weakFails = some after) :
    Effect cfg before action after := by
  have notCas : (before.pc thread).isCas = false → NoListEvent cfg before action := by
    intro notCas
    apply noListEvent_of_notCas notCas
    cases weakFails <;> simp [acts]
  unfold advance at advanced
  split at advanced
  case h_1 | h_2 => contradiction
  case h_3 pool at_pc =>
    simp only [Option.some.injEq] at advanced
    subst after
    split_ifs <;> exact .of_goto (by simp [at_pc]) (by simp) (notCas (by simp [at_pc, Pc.isCas]))
  case h_4 pool page at_pc =>
    simp only [Option.some.injEq] at advanced
    subst after
    apply Effect.of_goto
    · simp [at_pc]
    · simp
    · exact notCas (by simp [at_pc, Pc.isCas])
  case h_5 pool page next at_pc =>
    split at advanced
    · next succeeds =>
        simp only [Option.some.injEq] at advanced
        refine .popped thread pool page next at_pc succeeds.1 ?_ advanced.symm
        simp [acts, succeeds.2, event, at_pc, succeeds.1]
    · next fails =>
        simp only [Option.some.injEq] at advanced
        subst after
        refine .of_goto (by simp [at_pc]) (by simp) ?_
        cases weakFails <;> simp_all [NoListEvent, event]
  case h_6 pool page at_pc =>
    simp only [Option.some.injEq] at advanced
    subst after
    by_cases isNull : page = 0
    · refine .of_move thread rfl rfl rfl (fun _ _ => rfl) ?_ ?_
        (notCas (by simp [at_pc, Pc.isCas]))
      · simp [owned, at_pc, isNull]
      · intro pushed expected
        simpa [isNull] using richestLoop_ne_pushCas cfg 0 0 0 false pushed expected
    · refine .of_move thread rfl rfl rfl (fun _ _ => rfl) ?_ ?_
        (notCas (by simp [at_pc, Pc.isCas]))
      · simp [owned, at_pc, isNull]
      · simp [isNull]
  case h_7 pool richest maxRemain hasPage at_pc =>
    split at advanced
    · simp only [Option.some.injEq] at advanced
      subst after
      apply Effect.of_goto
      · simp [at_pc]
      · simp
      · exact notCas (by simp [at_pc, Pc.isCas])
    · simp only [Option.some.injEq] at advanced
      subst after
      apply Effect.of_goto
      · simp [at_pc]
      · exact richestLoop_ne_pushCas cfg _ _ _ _
      · exact notCas (by simp [at_pc, Pc.isCas])
  case h_8 pool at_pc =>
    simp only [Option.some.injEq] at advanced
    subst after
    apply Effect.of_goto
    · simp [at_pc]
    · exact richestLoop_ne_pushCas cfg _ _ _ _
    · exact notCas (by simp [at_pc, Pc.isCas])
  case h_9 page at_pc =>
    simp only [Option.some.injEq] at advanced
    subst after
    refine .of_move thread rfl rfl rfl ?_ ?_ (by simp)
      (notCas (by simp [at_pc, Pc.isCas]))
    · intro other notThread
      by_cases isNull : page = 0 <;> simp [isNull, notThread]
    · by_cases isNull : page = 0 <;> simp [owned, at_pc, isNull]
  case h_10 page at_pc =>
    simp only [Option.some.injEq] at advanced
    subst after
    apply Effect.of_goto
    · simp [at_pc]
    · simp
    · exact notCas (by simp [at_pc, Pc.isCas])
  case h_11 page expected at_pc =>
    simp only [Option.some.injEq] at advanced
    exact .prepared thread page expected at_pc (notCas (by simp [at_pc, Pc.isCas]))
      advanced.symm
  case h_12 page expected at_pc =>
    split at advanced
    · next succeeds =>
        simp only [Option.some.injEq] at advanced
        refine .pushed thread page expected at_pc succeeds.1 ?_ advanced.symm
        simp [acts, succeeds.2, event, at_pc, succeeds.1]
    · next fails =>
        simp only [Option.some.injEq] at advanced
        subst after
        refine .of_goto (by simp [at_pc]) (by simp) ?_
        cases weakFails <;> simp_all [NoListEvent, event]
  case h_13 page at_pc =>
    simp only [Option.some.injEq] at advanced
    subst after
    exact .of_move thread rfl rfl rfl (fun _ _ => rfl)
      (by simp [owned, at_pc]) (by simp) (notCas (by simp [at_pc, Pc.isCas]))

/-- Every step of the pool has one of the five effects. -/
theorem step_effect {cfg : Config Thread} {before after : MemoryPool Thread}
    {action : Action Thread} (stepped : step cfg before action = some after) :
    Effect cfg before action after := by
  cases action with
  | callAllocate thread =>
      simp only [step, Option.ite_none_right_eq_some, Option.some.injEq] at stepped
      rcases stepped with ⟨at_pc, rfl⟩
      apply Effect.of_goto
      · simp [at_pc]
      · simp
      · simp [NoListEvent, event]
  | callDeallocate thread page =>
      simp only [step, Option.ite_none_right_eq_some] at stepped
      rcases stepped with ⟨at_pc, stepped⟩
      split at stepped
      · simp only [Option.some.injEq] at stepped
        subst after
        exact .quiet rfl rfl (fun _ => .refl _) (fun _ _ _ at_cas => at_cas)
          (by simp [NoListEvent, event])
      · simp only [Option.ite_none_right_eq_some, Option.some.injEq] at stepped
        rcases stepped with ⟨holds, rfl⟩
        refine .of_move thread rfl rfl rfl ?_ ?_ (by simp)
          (by simp [NoListEvent, event])
        · intro other notThread
          simp [notThread]
        · simpa [owned, at_pc] using (List.perm_cons_erase holds).symm
  | tick thread => exact advance_effect (by simp) stepped
  | spuriousFailure thread =>
      simp only [step, Option.ite_none_right_eq_some] at stepped
      exact advance_effect (by simp) stepped.2
  | overwrite thread page word =>
      simp only [step, Option.ite_none_right_eq_some, Option.some.injEq] at stepped
      refine .overwritten thread page word stepped.1 ?_ stepped.2.symm
      simp [NoListEvent, event]

theorem advance_follows {cfg : Config Thread} {before after : MemoryPool Thread}
    {thread : Thread} (advanced : advance cfg before thread false = some after) :
    ∃ pc, after.pc = Function.update before.pc thread pc ∧
      Follows cfg before (before.pc thread) pc := by
  unfold advance at advanced
  split at advanced
  case h_1 | h_2 => contradiction
  case h_3 i at_pc =>
    simp only [Option.some.injEq] at advanced
    subst after
    rw [at_pc]
    refine ⟨_, rfl, ?_⟩
    split_ifs with isNull
    · exact .headIsNull i isNull
    · exact .headLoaded i isNull
  case h_4 i page at_pc =>
    simp only [Option.some.injEq] at advanced
    subst after
    rw [at_pc]
    exact ⟨_, rfl, .nextLoaded i page⟩
  case h_5 i page next at_pc =>
    rw [at_pc]
    split at advanced
    · next succeeds =>
        simp only [Option.some.injEq] at advanced
        subst after
        exact ⟨_, rfl, .popSucceeded i page next succeeds.1⟩
    · next fails =>
        simp only [Option.some.injEq] at advanced
        subst after
        exact ⟨_, rfl, .popFailed i page next (fun same => fails ⟨same, rfl⟩)⟩
  case h_6 i page at_pc =>
    simp only [Option.some.injEq] at advanced
    subst after
    rw [at_pc]
    refine ⟨_, rfl, ?_⟩
    split_ifs with isNull
    · subst page
      exact .nothingTaken i
    · exact .taken i page isNull
  case h_7 i richest maxRemain hasPage at_pc =>
    rw [at_pc]
    split at advanced
    · next more =>
        simp only [Option.some.injEq] at advanced
        subst after
        exact ⟨_, rfl, .richer i richest maxRemain hasPage more⟩
    · next notMore =>
        simp only [Option.some.injEq] at advanced
        subst after
        exact ⟨_, rfl, .notRicher i richest maxRemain hasPage notMore⟩
  case h_8 i at_pc =>
    simp only [Option.some.injEq] at advanced
    subst after
    rw [at_pc]
    exact ⟨_, rfl, .maxRead i⟩
  case h_9 page at_pc =>
    simp only [Option.some.injEq] at advanced
    subst after
    rw [at_pc]
    exact ⟨_, rfl, .returned page⟩
  case h_10 page at_pc =>
    simp only [Option.some.injEq] at advanced
    subst after
    rw [at_pc]
    exact ⟨_, rfl, .expectedLoaded page⟩
  case h_11 page expected at_pc =>
    simp only [Option.some.injEq] at advanced
    subst after
    rw [at_pc]
    exact ⟨_, rfl, .nextStored page expected⟩
  case h_12 page expected at_pc =>
    rw [at_pc]
    split at advanced
    · next succeeds =>
        simp only [Option.some.injEq] at advanced
        subst after
        exact ⟨_, rfl, .pushSucceeded page expected succeeds.1⟩
    · next fails =>
        simp only [Option.some.injEq] at advanced
        subst after
        exact ⟨_, rfl, .pushFailed page expected (fun same => fails ⟨same, rfl⟩)⟩
  case h_13 page at_pc =>
    simp only [Option.some.injEq] at advanced
    subst after
    rw [at_pc]
    exact ⟨_, rfl, .incremented page⟩

theorem advance_retries {cfg : Config Thread} {before after : MemoryPool Thread}
    {thread : Thread} (isCas : (before.pc thread).isCas = true)
    (advanced : advance cfg before thread true = some after) :
    ∃ pc, after = before.goto thread pc ∧ Retries (before.pc thread) pc := by
  unfold advance at advanced
  cases at_pc : before.pc thread with
  | popCas i page next =>
      simp only [at_pc, Bool.true_eq_false, and_false, if_false, Option.some.injEq] at advanced
      exact ⟨_, advanced.symm, .pop i page next⟩
  | pushCas page expected =>
      simp only [at_pc, Bool.true_eq_false, and_false, if_false, Option.some.injEq] at advanced
      exact ⟨_, advanced.symm, .push page expected⟩
  | _ => simp [at_pc, Pc.isCas] at isCas

/-- What a step does to the control state of a given thread. -/
inductive ThreadStep (cfg : Config Thread) (before : MemoryPool Thread)
    (action : Action Thread) (thread : Thread) : Pc → Prop where
  | unmoved : ThreadStep cfg before action thread (before.pc thread)
  | callsAllocate (acts : action = .callAllocate thread)
      (isIdle : before.pc thread = .idle) :
      ThreadStep cfg before action thread (.loadHead (cfg.home thread))
  | callsDeallocate (page : Addr) (acts : action = .callDeallocate thread page)
      (isIdle : before.pc thread = .idle) (notNull : page ≠ 0)
      (holds : page ∈ before.held thread) :
      ThreadStep cfg before action thread (.pushLoad page)
  | advances (pc : Pc) (acts : action = .tick thread)
      (follows : Follows cfg before (before.pc thread) pc) :
      ThreadStep cfg before action thread pc
  | retries (pc : Pc) (acts : action = .spuriousFailure thread)
      (retries : Retries (before.pc thread) pc) :
      ThreadStep cfg before action thread pc

theorem step_thread {cfg : Config Thread} {before after : MemoryPool Thread}
    {action : Action Thread} (stepped : step cfg before action = some after)
    (thread : Thread) : ThreadStep cfg before action thread (after.pc thread) := by
  cases action with
  | callAllocate actor =>
      simp only [step, Option.ite_none_right_eq_some, Option.some.injEq] at stepped
      rcases stepped with ⟨isIdle, rfl⟩
      by_cases isActor : thread = actor
      · subst actor
        simpa [goto] using ThreadStep.callsAllocate rfl isIdle
      · simpa [goto, isActor] using ThreadStep.unmoved
  | callDeallocate actor page =>
      simp only [step, Option.ite_none_right_eq_some] at stepped
      rcases stepped with ⟨isIdle, stepped⟩
      split at stepped
      · simp only [Option.some.injEq] at stepped
        subst after
        exact .unmoved
      · next notNull =>
          simp only [Option.ite_none_right_eq_some, Option.some.injEq] at stepped
          rcases stepped with ⟨holds, rfl⟩
          by_cases isActor : thread = actor
          · subst actor
            simpa using ThreadStep.callsDeallocate page rfl isIdle notNull holds
          · simpa [isActor] using ThreadStep.unmoved
  | tick actor =>
      rcases advance_follows stepped with ⟨pc, moved, follows⟩
      rw [moved]
      by_cases isActor : thread = actor
      · subst actor
        rw [Function.update_self]
        exact .advances pc rfl follows
      · rw [Function.update_of_ne isActor]
        exact .unmoved
  | spuriousFailure actor =>
      simp only [step, Option.ite_none_right_eq_some] at stepped
      rcases advance_retries stepped.1 stepped.2 with ⟨pc, rfl, retries⟩
      by_cases isActor : thread = actor
      · subst actor
        simpa [goto] using ThreadStep.retries pc rfl retries
      · simpa [goto, isActor] using ThreadStep.unmoved
  | overwrite actor page word =>
      simp only [step, Option.ite_none_right_eq_some, Option.some.injEq] at stepped
      rcases stepped with ⟨_, rfl⟩
      exact .unmoved

end UserLevelMmap.MemoryPool
