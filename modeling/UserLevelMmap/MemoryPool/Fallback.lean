import UserLevelMmap.MemoryPool.Counters
import UserLevelMmap.MemoryPool.Exhaustion

/-!
# The fallback of `allocate`

When the list of its starting pool is empty, `allocate` is meant to go to the
richest pool once. This file follows a single call that no other call disturbs and
compares it with that contract.

A call on a non-empty list takes the head of this list and never looks at the other
pools. A call on an empty list first decrements the counter of this list, which was
`0` if the counters were exact. The counter is then `2 ^ 64 - 1`, the scan finds the
pool itself to be the richest one, and the call goes back to the empty list.
-/

namespace UserLevelMmap.MemoryPool

variable {Thread : Type}

/-! ## A single call -/

/-- A call in progress, with the number of its jumps to `retry` so far. -/
structure Call (Thread : Type) where
  pool : MemoryPool Thread
  jumps : ℕ

/-- The thread leaves the scan of the counters for another load of a head. -/
def Pc.jumpsTo : Pc → Pc → Bool
  | .richestTest .., .loadHead _ => true
  | .richestMax _, .loadHead _ => true
  | _, _ => false

/-- The contract about the richest list: no list is longer, and those in front are shorter. -/
def Longest (cfg : Config Thread) (lists : ℕ → List Addr) (j : ℕ) : Prop :=
  j < cfg.numPools ∧ (∀ i < cfg.numPools, (lists i).length ≤ (lists j).length) ∧
    ∀ i < j, (lists i).length < (lists j).length

section

variable [DecidableEq Thread]

/-- `allocate` in a thread that starts with the given pool. -/
def startCall (pool : MemoryPool Thread) (thread : Thread) (h : ℕ) : Call Thread where
  pool := pool.goto thread (.loadHead h)
  jumps := 0

/-- The next step of the call; `true` lets a compare-and-swap fail spuriously. -/
def callStep (cfg : Config Thread) (thread : Thread) : Transition (Call Thread) Bool :=
  fun call fails =>
    (step cfg call.pool (if fails then .spuriousFailure thread else .tick thread)).map
      (fun after =>
        { pool := after
          jumps := call.jumps +
            if (call.pool.pc thread).jumpsTo (after.pc thread) then 1 else 0 })

/-- The call returns after finitely many steps without spurious failures. -/
inductive Finishes (cfg : Config Thread) (thread : Thread) : Call Thread → Prop where
  | returned {call : Call Thread} (isIdle : call.pool.pc thread = .idle) :
      Finishes cfg thread call
  | step {call next : Call Thread} (stepped : callStep cfg thread call false = some next)
      (finishes : Finishes cfg thread next) : Finishes cfg thread call

/-- What a call of `allocate` is meant to do that starts with pool `h` and runs alone. -/
structure FallsBack (cfg : Config Thread) (pool : MemoryPool Thread) (thread : Thread) (h : ℕ) :
    Prop where
  jumps : ∀ past call, Run (callStep cfg thread) (startCall pool thread h) past call →
    call.jumps ≤ 1
  finishes : ∀ past call, Run (callStep cfg thread) (startCall pool thread h) past call →
    Finishes cfg thread call
  home : ∀ past call page, Run (callStep cfg thread) (startCall pool thread h) past call →
    call.pool.pc thread = .returnPage page → pool.localPools h ≠ 0 → page = pool.localPools h
  longest : ∀ past call page, Run (callStep cfg thread) (startCall pool thread h) past call →
    call.pool.pc thread = .returnPage page → pool.localPools h = 0 →
      ∀ lists j, (∀ i < cfg.numPools, Linked pool.next 0 (pool.localPools i) (lists i)) →
        Longest cfg lists j → lists j ≠ [] → page = pool.localPools j
  null_iff : ∀ past call page, Run (callStep cfg thread) (startCall pool thread h) past call →
    call.pool.pc thread = .returnPage page → (page = 0 ↔ Exhausted cfg pool)
  null_keeps : ∀ past call, Run (callStep cfg thread) (startCall pool thread h) past call →
    call.pool.pc thread = .returnPage 0 →
      call.pool.localPools = pool.localPools ∧
        call.pool.localRemainPages = pool.localRemainPages

/-! ## Calls on a list with pages -/

/-- The locals of a call that takes the head of its first list. -/
def Pc.Direct (pool : MemoryPool Thread) (h : ℕ) (now : MemoryPool Thread) : Pc → Prop
  | .loadHead i => i = h ∧ now.localPools h = pool.localPools h
  | .loadNext i page => i = h ∧ page = pool.localPools h ∧ now.localPools h = pool.localPools h
  | .popCas i page _ => i = h ∧ page = pool.localPools h ∧ now.localPools h = pool.localPools h
  | .decrement _ page => page = pool.localPools h
  | .returnPage page => page = pool.localPools h
  | .idle => True
  | _ => False

variable {cfg : Config Thread} {pool : MemoryPool Thread} {thread : Thread} {h : ℕ}

theorem callStep_tick {call : Call Thread} {after : MemoryPool Thread}
    (stepped : step cfg call.pool (.tick thread) = some after) :
    callStep cfg thread call false = some
      { pool := after
        jumps :=
          call.jumps + if (call.pool.pc thread).jumpsTo (after.pc thread) then 1 else 0 } := by
  simp only [callStep, Bool.false_eq_true, if_false, stepped, Option.map_some]

/-- A step of the call is a step of its thread, with the failure of a compare-and-swap only. -/
theorem callStep_advance {before after : Call Thread} {fails : Bool}
    (stepped : callStep cfg thread before fails = some after) :
    ∃ next, advance cfg before.pool thread fails = some next ∧ after.pool = next ∧
      after.jumps = before.jumps +
        if (before.pool.pc thread).jumpsTo (next.pc thread) then 1 else 0 := by
  rw [callStep, Option.map_eq_some_iff] at stepped
  rcases stepped with ⟨next, stepped, rfl⟩
  refine ⟨next, ?_, rfl, rfl⟩
  cases fails with
  | false => exact stepped
  | true =>
      simp only [if_true, step, Option.ite_none_right_eq_some] at stepped
      exact stepped.2

theorem callStep_direct {before after : Call Thread} {fails : Bool}
    (head_ne : pool.localPools h ≠ 0)
    (direct : (before.pool.pc thread).Direct pool h before.pool ∧ before.jumps = 0)
    (stepped : callStep cfg thread before fails = some after) :
    (after.pool.pc thread).Direct pool h after.pool ∧ after.jumps = 0 := by
  rcases direct with ⟨direct, noJump⟩
  rcases callStep_advance stepped with ⟨next, advanced, rfl, jumps_eq⟩
  rw [jumps_eq, noJump]
  cases at_pc : before.pool.pc thread with
  | loadHead i =>
      rw [at_pc] at direct
      rcases direct with ⟨rfl, kept⟩
      have loaded_ne : before.pool.localPools i ≠ 0 := by rwa [kept]
      simp only [advance, at_pc, if_neg loaded_ne, Option.some.injEq] at advanced
      rw [← advanced]
      simp [goto, Pc.Direct, Pc.jumpsTo, kept]
  | loadNext i page =>
      rw [at_pc] at direct
      rcases direct with ⟨rfl, rfl, kept⟩
      simp only [advance, at_pc, Option.some.injEq] at advanced
      rw [← advanced]
      simp [goto, Pc.Direct, Pc.jumpsTo, kept]
  | popCas i page word =>
      rw [at_pc] at direct
      rcases direct with ⟨rfl, rfl, kept⟩
      simp only [advance, at_pc, kept, true_and] at advanced
      split at advanced
      · rw [Option.some.injEq] at advanced
        rw [← advanced]
        simp [Pc.Direct, Pc.jumpsTo]
      · rw [Option.some.injEq] at advanced
        rw [← advanced]
        simp [goto, Pc.Direct, Pc.jumpsTo, kept]
  | decrement i page =>
      rw [at_pc] at direct
      have page_ne : page ≠ 0 := by
        rw [direct]
        exact head_ne
      simp only [advance, at_pc, if_neg page_ne, Option.some.injEq] at advanced
      rw [← advanced]
      simpa [Pc.Direct, Pc.jumpsTo] using direct
  | returnPage page =>
      simp only [advance, at_pc, Option.some.injEq] at advanced
      rw [← advanced]
      simp [Pc.Direct, Pc.jumpsTo]
  | idle => simp [advance, at_pc] at advanced
  | _ =>
      rw [at_pc] at direct
      exact direct.elim

theorem direct_of_run (head_ne : pool.localPools h ≠ 0) {past : History (Call Thread) Bool}
    {call : Call Thread} (run : Run (callStep cfg thread) (startCall pool thread h) past call) :
    (call.pool.pc thread).Direct pool h call.pool ∧ call.jumps = 0 := by
  refine run.invariant (fun _ _ => True)
    (fun call => (call.pool.pc thread).Direct pool h call.pool ∧ call.jumps = 0) ?_ ?_
    (fun _ _ => trivial)
  · simp [startCall, goto, Pc.Direct]
  · intro before after fails direct _ stepped
    exact callStep_direct head_ne direct stepped

theorem Finishes.tick {call : Call Thread} {after : MemoryPool Thread}
    (stepped : MemoryPool.step cfg call.pool (.tick thread) = some after)
    (finishes : ∀ jumps, Finishes cfg thread ⟨after, jumps⟩) : Finishes cfg thread call :=
  .step (callStep_tick stepped) (finishes _)

theorem finishes_of_direct (head_ne : pool.localPools h ≠ 0) {call : Call Thread}
    (direct : (call.pool.pc thread).Direct pool h call.pool) : Finishes cfg thread call := by
  -- From the last step of the call to its first.
  have fromReturn : ∀ {call : Call Thread} {page : Addr},
      call.pool.pc thread = .returnPage page → Finishes cfg thread call := by
    intro call page at_pc
    apply Finishes.tick (by simp only [step, advance, at_pc]; rfl)
    intro jumps
    exact .returned (by simp)
  have fromDecrement : ∀ {call : Call Thread} {i : ℕ} {page : Addr}, page ≠ 0 →
      call.pool.pc thread = .decrement i page → Finishes cfg thread call := by
    intro call i page page_ne at_pc
    apply Finishes.tick (by simp only [step, advance, at_pc, if_neg page_ne]; rfl)
    intro jumps
    exact fromReturn (Function.update_self _ _ _)
  have fromPop : ∀ {call : Call Thread} {i : ℕ} {page next : Addr}, page ≠ 0 →
      call.pool.localPools i = page → call.pool.pc thread = .popCas i page next →
        Finishes cfg thread call := by
    intro call i page next page_ne head_eq at_pc
    apply Finishes.tick (by simp only [step, advance, at_pc, head_eq, and_self, if_true]; rfl)
    intro jumps
    exact fromDecrement page_ne (Function.update_self _ _ _)
  have fromNext : ∀ {call : Call Thread} {i : ℕ} {page : Addr}, page ≠ 0 →
      call.pool.localPools i = page → call.pool.pc thread = .loadNext i page →
        Finishes cfg thread call := by
    intro call i page page_ne head_eq at_pc
    apply Finishes.tick (by simp only [step, advance, at_pc]; rfl)
    intro jumps
    exact fromPop page_ne head_eq (Function.update_self _ _ _)
  cases at_pc : call.pool.pc thread with
  | loadHead i =>
      rw [at_pc] at direct
      rcases direct with ⟨rfl, kept⟩
      have loaded_ne : call.pool.localPools i ≠ 0 := by rwa [kept]
      apply Finishes.tick (by simp only [step, advance, at_pc, if_neg loaded_ne]; rfl)
      intro jumps
      exact fromNext loaded_ne rfl (Function.update_self _ _ _)
  | loadNext i page =>
      rw [at_pc] at direct
      rcases direct with ⟨rfl, rfl, kept⟩
      exact fromNext head_ne kept at_pc
  | popCas i page next =>
      rw [at_pc] at direct
      rcases direct with ⟨rfl, rfl, kept⟩
      exact fromPop head_ne kept at_pc
  | decrement i page =>
      rw [at_pc] at direct
      apply fromDecrement _ at_pc
      rw [direct]
      exact head_ne
  | returnPage page => exact fromReturn at_pc
  | idle => exact .returned at_pc
  | _ =>
      rw [at_pc] at direct
      exact direct.elim

/-- A call on a list with pages does what it is meant to do, whatever the counters are. -/
theorem fallsBack_of_pages (inside : h < cfg.numPools) (head_ne : pool.localPools h ≠ 0) :
    FallsBack cfg pool thread h := by
  have returned : ∀ {past : History (Call Thread) Bool} {call : Call Thread} {page : Addr},
      Run (callStep cfg thread) (startCall pool thread h) past call →
        call.pool.pc thread = .returnPage page → page = pool.localPools h := by
    intro past call page run at_pc
    have direct := (direct_of_run head_ne run).1
    rwa [at_pc] at direct
  constructor
  · intro past call run
    rw [(direct_of_run head_ne run).2]
    exact Nat.zero_le 1
  · intro past call run
    exact finishes_of_direct head_ne (direct_of_run head_ne run).1
  · intro past call page run at_pc _
    exact returned run at_pc
  · intro past call page run at_pc isNull
    exact absurd isNull head_ne
  · intro past call page run at_pc
    rw [returned run at_pc]
    constructor
    · intro isNull
      exact absurd isNull head_ne
    · intro exhausted
      exact exhausted h inside
  · intro past call run at_pc
    exact absurd (returned run at_pc).symm head_ne

/-! ## Calls on an empty list -/

/-- The call can get here. -/
def Reaches (cfg : Config Thread) (pool : MemoryPool Thread) (thread : Thread) (h : ℕ)
    (call : Call Thread) : Prop :=
  ∃ past, Run (callStep cfg thread) (startCall pool thread h) past call

theorem Reaches.tick {call : Call Thread} {after : MemoryPool Thread}
    (reaches : Reaches cfg pool thread h call)
    (stepped : step cfg call.pool (.tick thread) = some after) :
    Reaches cfg pool thread h
      { pool := after
        jumps :=
          call.jumps + if (call.pool.pc thread).jumpsTo (after.pc thread) then 1 else 0 } := by
  rcases reaches with ⟨past, run⟩
  exact ⟨_, run.step (callStep_tick stepped)⟩

theorem jumpsTo_richestTest (i richest j : ℕ) (maxRemain : Counter) (hasPage : Bool) (pc : Pc) :
    (Pc.richestTest i richest maxRemain hasPage).jumpsTo pc = (Pc.richestMax j).jumpsTo pc := by
  cases pc <;> rfl

theorem jumpsTo_richestMax (i j : ℕ) (pc : Pc) :
    (Pc.richestMax i).jumpsTo pc = (Pc.richestMax j).jumpsTo pc := by
  cases pc <;> rfl

/-- The locals of a scan that is going to end with pool `h`. -/
def Leads (now : MemoryPool Thread) (h i richest : ℕ) (maxRemain : Counter) (hasPage : Bool) :
    Prop :=
  (i ≤ h → maxRemain < now.localRemainPages h) ∧
    (h < i → richest = h ∧ maxRemain = now.localRemainPages h ∧ hasPage = true)

/-- The counter of pool `h` is above all others. -/
def Richest (cfg : Config Thread) (now : MemoryPool Thread) (h : ℕ) : Prop :=
  ∀ j < cfg.numPools, j ≠ h → now.localRemainPages j < now.localRemainPages h

/-- One iteration of the scan. -/
theorem Reaches.scan_once {now : MemoryPool Thread} {i richest jumps : ℕ} {maxRemain : Counter}
    {hasPage : Bool} (isRichest : Richest cfg now h) (inside : i < cfg.numPools)
    (leads : Leads now h i richest maxRemain hasPage)
    (reaches : Reaches cfg pool thread h
      ⟨now.goto thread (.richestTest i richest maxRemain hasPage), jumps⟩) :
    ∃ richest' maxRemain' hasPage', Leads now h (i + 1) richest' maxRemain' hasPage' ∧
      Reaches cfg pool thread h
        { pool := now.goto thread (cfg.richestLoop (i + 1) richest' maxRemain' hasPage')
          jumps := jumps + if (Pc.richestMax h).jumpsTo
            (cfg.richestLoop (i + 1) richest' maxRemain' hasPage') then 1 else 0 } := by
  by_cases more : maxRemain < now.localRemainPages i
  · have tested : step cfg (now.goto thread (.richestTest i richest maxRemain hasPage))
        (.tick thread) = some (now.goto thread (.richestMax i)) := by
      simp [step, advance, goto, more]
    have read : step cfg (now.goto thread (.richestMax i)) (.tick thread) =
        some (now.goto thread
          (cfg.richestLoop (i + 1) i (now.localRemainPages i) true)) := by
      simp [step, advance, goto]
    refine ⟨i, now.localRemainPages i, true, ⟨?_, ?_⟩, ?_⟩
    · intro notPassed
      exact isRichest i inside (by omega)
    · intro passed
      have isHere : i = h := by
        by_contra distinct
        have behind := leads.2 (by omega)
        rw [behind.2.1] at more
        exact absurd more (BitVec.lt_asymm (isRichest i inside distinct))
      simp [isHere]
    · have reached := (reaches.tick tested).tick read
      have staysInScan :
          (Pc.richestTest i richest maxRemain hasPage).jumpsTo (.richestMax i) = false := rfl
      simpa [goto, staysInScan, jumpsTo_richestMax i h] using reached
  · have tested : step cfg (now.goto thread (.richestTest i richest maxRemain hasPage))
        (.tick thread) =
          some (now.goto thread (cfg.richestLoop (i + 1) richest maxRemain hasPage)) := by
      simp [step, advance, goto, more]
    refine ⟨richest, maxRemain, hasPage, ⟨?_, ?_⟩, ?_⟩
    · intro notPassed
      exact leads.1 (by omega)
    · intro passed
      apply leads.2
      by_contra notPassed
      have isHere : i = h := by omega
      subst i
      exact more (leads.1 (by omega))
    · have reached := reaches.tick tested
      simpa [goto, jumpsTo_richestTest _ _ h] using reached

/-- The scan ends with the pool whose counter is above all others. -/
theorem Reaches.scan {now : MemoryPool Thread} (isRichest : Richest cfg now h)
    (inside : h < cfg.numPools) {left i richest jumps : ℕ} {maxRemain : Counter} {hasPage : Bool}
    (remaining : i + left + 1 = cfg.numPools)
    (leads : Leads now h i richest maxRemain hasPage)
    (reaches : Reaches cfg pool thread h
      ⟨now.goto thread (.richestTest i richest maxRemain hasPage), jumps⟩) :
    Reaches cfg pool thread h
      { pool := now.goto thread
          (cfg.richestLoop cfg.numPools h (now.localRemainPages h) true)
        jumps := jumps + if (Pc.richestMax h).jumpsTo
          (cfg.richestLoop cfg.numPools h (now.localRemainPages h) true) then 1 else 0 } := by
  induction left generalizing i richest maxRemain hasPage with
  | zero =>
      rcases reaches.scan_once isRichest (by omega) leads with
        ⟨richest', maxRemain', hasPage', leadsNext, reached⟩
      rcases leadsNext.2 (by omega) with ⟨rfl, rfl, rfl⟩
      have atEnd : i + 1 = cfg.numPools := by omega
      rwa [atEnd] at reached
  | succ left ih =>
      rcases reaches.scan_once isRichest (by omega) leads with
        ⟨richest', maxRemain', hasPage', leadsNext, reached⟩
      apply ih (by omega) leadsNext
      have goesOn : cfg.richestLoop (i + 1) richest' maxRemain' hasPage' =
          .richestTest (i + 1) richest' maxRemain' hasPage' := if_pos (by omega)
      simpa [goesOn, Pc.jumpsTo] using reached

/-- The pool after the decrement of an attempt that finds list `h` empty. -/
def lowered (now : MemoryPool Thread) (h : ℕ) : MemoryPool Thread :=
  { now with
    localRemainPages :=
      Function.update now.localRemainPages h (now.localRemainPages h - 1) }

omit [DecidableEq Thread] in
theorem lowered_self (now : MemoryPool Thread) :
    (lowered now h).localRemainPages h = now.localRemainPages h - 1 :=
  Function.update_self _ _ _

omit [DecidableEq Thread] in
theorem lowered_of_ne {now : MemoryPool Thread} {j : ℕ} (distinct : j ≠ h) :
    (lowered now h).localRemainPages j = now.localRemainPages j :=
  Function.update_of_ne distinct _ _

/-- The counter of pool `h` is above a bound on the others. -/
def Wrapped (cfg : Config Thread) (now : MemoryPool Thread) (h : ℕ) : Prop :=
  2 ^ 60 ≤ (now.localRemainPages h).toNat ∧
    ∀ j < cfg.numPools, j ≠ h → (now.localRemainPages j).toNat < 2 ^ 60

/-- An attempt on the empty list `h` whose decremented counter is above all others. -/
theorem Reaches.attempt {now : MemoryPool Thread} {jumps : ℕ} (inside : h < cfg.numPools)
    (isEmpty : now.localPools h = 0) (wrapped : Wrapped cfg (lowered now h) h)
    (reaches : Reaches cfg pool thread h ⟨now.goto thread (.loadHead h), jumps⟩) :
    Reaches cfg pool thread h
      { pool := (lowered now h).goto thread
          (cfg.richestLoop cfg.numPools h ((lowered now h).localRemainPages h) true)
        jumps := jumps + if (Pc.richestMax h).jumpsTo
          (cfg.richestLoop cfg.numPools h ((lowered now h).localRemainPages h) true)
            then 1 else 0 } := by
  have isRichest : Richest cfg (lowered now h) h := by
    intro j insideJ distinct
    exact Nat.lt_of_lt_of_le (wrapped.2 j insideJ distinct) wrapped.1
  have positive : 0 < (lowered now h).localRemainPages h :=
    Nat.lt_of_lt_of_le (Nat.two_pow_pos 60) wrapped.1
  have entersScan : cfg.richestLoop 0 0 0 false = .richestTest 0 0 0 false :=
    if_pos cfg.numPools_pos
  have loaded : step cfg (now.goto thread (.loadHead h)) (.tick thread) =
      some (now.goto thread (.decrement h 0)) := by
    simp [step, advance, goto, isEmpty]
  have decremented : step cfg (now.goto thread (.decrement h 0)) (.tick thread) =
      some ((lowered now h).goto thread (.richestTest 0 0 0 false)) := by
    simp only [step, advance, goto, lowered, Function.update_self, Function.update_idem, if_true,
      entersScan]
  have scanning : Reaches cfg pool thread h
      ⟨(lowered now h).goto thread (.richestTest 0 0 0 false), jumps⟩ := by
    have reached := (reaches.tick loaded).tick decremented
    simpa [goto, Pc.jumpsTo] using reached
  have leads : Leads (lowered now h) h 0 0 0 false :=
    ⟨fun _ => positive, fun passed => absurd passed (Nat.not_lt_zero h)⟩
  have remaining : 0 + (cfg.numPools - 1) + 1 = cfg.numPools := by
    have := cfg.numPools_pos
    omega
  exact scanning.scan isRichest inside remaining leads

theorem toInt_eq_or_neg {index : ℕ} (small : index < 2 ^ 32) :
    toInt index = index ∨ toInt index < 0 := by
  have reduced : (index : ℤ) % ((2 ^ 32 : ℕ) : ℤ) = index := by omega
  unfold toInt Int.bmod
  rw [reduced]
  dsimp only
  split
  · exact Or.inl rfl
  · right
    omega

omit [DecidableEq Thread] in
/-- With fewer than `2 ^ 32` pools the conversion to `int` keeps the index or makes it negative. -/
theorem richestLoop_atEnd (few : cfg.numPools < 2 ^ 32) (inside : h < cfg.numPools)
    (maxRemain : Counter) :
    cfg.richestLoop cfg.numPools h maxRemain true = .loadHead h ∨
      cfg.richestLoop cfg.numPools h maxRemain true = .outOfBounds := by
  have notNone : toInt h ≠ -1 := toInt_ne_neg_one (by omega)
  simp only [Config.richestLoop, lt_irrefl, if_false, Bool.true_eq_false, if_neg notNone]
  rcases toInt_eq_or_neg (Nat.lt_trans inside few) with keeps | isNegative
  · left
    rw [keeps, if_pos (by omega), Int.toNat_natCast]
  · right
    rw [if_neg (by omega)]

theorem not_finishes_of_outOfBounds {call : Call Thread}
    (at_pc : call.pool.pc thread = .outOfBounds) : ¬Finishes cfg thread call := by
  intro finishes
  cases finishes with
  | returned isIdle => simp [at_pc] at isIdle
  | step stepped _ => simp [callStep, MemoryPool.step, advance, at_pc] at stepped

/-- A call on an empty list whose counter is `0` goes back to this list twice, or out of
the vectors, whatever the other lists are. -/
theorem not_fallsBack_of_empty (few : cfg.numPools < 2 ^ 32) (inside : h < cfg.numPools)
    (isEmpty : pool.localPools h = 0) (isZero : pool.localRemainPages h = 0)
    (small : ∀ i < cfg.numPools, (pool.localRemainPages i).toNat < 2 ^ 60) :
    ¬FallsBack cfg pool thread h := by
  intro fallsBack
  have wrappedOnce : Wrapped cfg (lowered pool h) h := by
    constructor
    · rw [lowered_self, isZero]
      decide
    · intro j insideJ distinct
      rw [lowered_of_ne distinct]
      exact small j insideJ
  have wrappedTwice : Wrapped cfg (lowered (lowered pool h) h) h := by
    constructor
    · rw [lowered_self, lowered_self, isZero]
      decide
    · intro j insideJ distinct
      rw [lowered_of_ne distinct]
      exact wrappedOnce.2 j insideJ distinct
  have started : Reaches cfg pool thread h ⟨pool.goto thread (.loadHead h), 0⟩ :=
    ⟨[], Run.start⟩
  have stillEmpty : (lowered pool h).localPools h = 0 := isEmpty
  have first := started.attempt inside isEmpty wrappedOnce
  rcases richestLoop_atEnd few inside ((lowered pool h).localRemainPages h) with again | outside
  · rw [again] at first
    have second := first.attempt inside stillEmpty wrappedTwice
    rcases richestLoop_atEnd few inside ((lowered (lowered pool h) h).localRemainPages h) with
      again | outside
    · rcases second with ⟨past, run⟩
      have atMostOne := fallsBack.jumps past _ run
      simp [again, Pc.jumpsTo] at atMostOne
    · rcases second with ⟨past, run⟩
      rw [outside] at run
      exact not_finishes_of_outOfBounds (by simp [goto]) (fallsBack.finishes past _ run)
  · rcases first with ⟨past, run⟩
    rw [outside] at run
    exact not_finishes_of_outOfBounds (by simp [goto]) (fallsBack.finishes past _ run)

/-- Between complete calls, `allocate` does what it is meant to do on every list with pages.
The first call of a run on an empty list does not. -/
theorem fallsBack_between_calls {pages : List Addr} (aligned : AlignedPages cfg pages)
    {past : History (MemoryPool Thread) (Action Thread)}
    (run : Run (step cfg) (construct cfg pages) past pool)
    (oneCall : Guarded OneCallAtATime past) (allIdle : ∀ thread, pool.pc thread = .idle)
    (thread : Thread) (inside : h < cfg.numPools) :
    (pool.localPools h ≠ 0 → FallsBack cfg pool thread h) ∧
      (cfg.numPools < 2 ^ 32 → Guarded (StartsOnPages cfg) past → pool.localPools h = 0 →
        ¬FallsBack cfg pool thread h) := by
  refine ⟨fallsBack_of_pages inside, ?_⟩
  intro few startsOnPages isEmpty
  rcases sequential_of_startsOnPages aligned run oneCall startsOnPages with ⟨free, sequential⟩
  have counts := sequential.resting allIdle
  have noPages : free h = [] := by
    apply (sequential.conserved.tracks.linked h).eq_nil_iff.mpr
    exact isEmpty
  apply not_fallsBack_of_empty few inside isEmpty
  · rw [counts h, noPages]
    rfl
  · intro i _
    rw [counts i, sequential.conserved.toNat_length aligned i]
    exact sequential.conserved.length_lt aligned i

end

/-- One of two pages is taken; the next call takes the other one. -/
theorem fallsBack_after_one_call :
    ∃ past pool, Run (step onePool) (construct onePool [4096, 8192]) past pool ∧
      past.length = 9 ∧ pool.localPools 0 = 4096 ∧ FallsBack onePool pool 1 0 := by
  have ran := Run.exists_of_perform (step onePool)
    (construct onePool [4096, 8192])
    [.callAllocate 0, .tick 0, .tick 0, .spuriousFailure 0, .tick 0, .tick 0, .tick 0, .tick 0,
      .tick 0]
    (fun past pool => past.length = 9 &&
      past.all (fun moment => decide (OneCallAtATime moment.1 moment.2)) &&
      decide (∀ thread, pool.pc thread = .idle) && decide (pool.localPools 0 = 4096))
    (by decide +kernel)
  rcases ran with ⟨past, pool, run, checked⟩
  simp only [Bool.and_eq_true, decide_eq_true_eq, List.all_eq_true] at checked
  rcases checked with ⟨⟨⟨length_eq, oneCall⟩, allIdle⟩, head_eq⟩
  have falls := fallsBack_between_calls onePool_aligned run oneCall allIdle 1
    (h := 0) (by decide)
  refine ⟨past, pool, run, length_eq, head_eq, falls.1 ?_⟩
  simp [head_eq]

/-- Both pages are in pool `0`; a call that starts with pool `1` stays with pool `1`. -/
theorem empty_list_stays_richest :
    ¬∀ (past : History (MemoryPool (Fin 2)) (Action (Fin 2))) (pool : MemoryPool (Fin 2)),
      AlignedPages twoPools [8192, 16384] →
        Run (step twoPools) (construct twoPools [8192, 16384]) past pool →
          Guarded OneCallAtATime past → (∀ thread, pool.pc thread = .idle) →
            ∀ thread, ∀ h < twoPools.numPools, FallsBack twoPools pool thread h := by
  intro always
  have aligned : AlignedPages twoPools [8192, 16384] :=
    ⟨by decide, by decide, by decide, by decide⟩
  have noMoment : Guarded OneCallAtATime ([] : History (MemoryPool (Fin 2)) (Action (Fin 2))) :=
    fun _ mem => absurd mem List.not_mem_nil
  have fallsBack := always [] (construct twoPools [8192, 16384]) aligned Run.start noMoment
    (by decide) 1 1 (by decide)
  apply not_fallsBack_of_empty (by decide) (by decide) _ _ _ fallsBack
  · decide
  · decide
  · decide

end UserLevelMmap.MemoryPool
