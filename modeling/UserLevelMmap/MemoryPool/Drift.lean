import Mathlib.Data.BitVec
import Mathlib.Tactic.LinearCombination
import Mathlib.Tactic.Ring
import UserLevelMmap.Library.Accounting
import UserLevelMmap.MemoryPool.Counters

/-!
# The drift of the counters

With any number of calls at a time, the counter of a pool is not the length of its list. It
is ahead by the updates that calls between their compare-and-swap and their counter update
still owe, and it is behind by the number of times that an `allocate` found the list empty,
since each of these times it was decremented without a page. The second difference stays
when all calls have returned, and it decides how the destructor ends.
-/

namespace UserLevelMmap.MemoryPool

variable {Thread : Type}

/-- What the counter of a pool is ahead because of a call in progress. -/
def Pc.owed (cfg : Config Thread) (i : ℕ) : Pc → Counter
  | .decrement j _ => if j = i then 1 else 0
  | .increment page => if cfg.poolIdx page = i then -1 else 0
  | _ => 0

/-- An `allocate` finds the list of the pool empty. -/
def findsEmpty (cfg : Config Thread) (i : ℕ) (pool : MemoryPool Thread) (action : Action Thread) :
    ℕ :=
  match event cfg pool action with
  | some (.loadsHead _ j) => if j = i ∧ pool.localPools i = 0 then 1 else 0
  | _ => 0

theorem owed_richestLoop (cfg : Config Thread) (i pool richest : ℕ) (maxRemain : Counter)
    (hasPage : Bool) : (cfg.richestLoop pool richest maxRemain hasPage).owed cfg i = 0 := by
  rcases richestLoop_cases cfg pool richest maxRemain hasPage with
    ⟨_, eq⟩ | eq | ⟨_, _, eq⟩ | eq <;> simp [eq, Pc.owed]

variable [DecidableEq Thread]

/-- The account of one pool at a step that moves one thread. -/
def Balanced (cfg : Config Thread) (i : ℕ) (before : MemoryPool Thread) (action : Action Thread)
    (after : MemoryPool Thread) (thread : Thread) (free free' : ℕ → List Addr) : Prop :=
  after.localRemainPages i + BitVec.ofNat 64 (findsEmpty cfg i before action) +
      (before.pc thread).owed cfg i + BitVec.ofNat 64 (free i).length =
    before.localRemainPages i + (after.pc thread).owed cfg i +
      BitVec.ofNat 64 (free' i).length

variable {cfg : Config Thread} {before after : MemoryPool Thread} {action : Action Thread}
  {free free' : ℕ → List Addr} {thread : Thread}

theorem tick_balanced (stepped : step cfg before (.tick thread) = some after)
    (fresh : PopsFresh cfg before (.tick thread))
    (change : Change cfg before (.tick thread) after free free') (i : ℕ) :
    Balanced cfg i before (.tick thread) after thread free free' := by
  have quiet : NoListEvent cfg before (.tick thread) → free' = free := change.lists_eq
  unfold Balanced
  cases at_pc : before.pc thread with
  | idle => simp [step, advance, at_pc] at stepped
  | outOfBounds => simp [step, advance, at_pc] at stepped
  | loadHead j =>
      rw [quiet (by simp [NoListEvent, event, at_pc])]
      simp only [step, advance, at_pc, Option.some.injEq] at stepped
      subst after
      by_cases isPool : j = i
      · subst j
        by_cases isNull : before.localPools i = 0
        · simp [findsEmpty, event, at_pc, goto, Pc.owed, isNull]
        · simp [findsEmpty, event, at_pc, goto, Pc.owed, isNull]
      · by_cases isNull : before.localPools j = 0
        · simp [findsEmpty, event, at_pc, goto, Pc.owed, isNull, isPool]
        · simp [findsEmpty, event, at_pc, goto, Pc.owed, isNull, isPool]
  | loadNext j page =>
      rw [quiet (by simp [NoListEvent, event, at_pc])]
      simp only [step, advance, at_pc, Option.some.injEq] at stepped
      subst after
      simp [findsEmpty, event, at_pc, goto, Pc.owed]
  | popCas j page next =>
      by_cases head_eq : before.localPools j = page
      · have happens : event cfg before (.tick thread) = some (.pops thread j page next) := by
          simp [event, at_pc, head_eq]
        have length_eq := change.length_of_pops fresh happens i
        simp only [step, advance, at_pc, head_eq, and_self, if_true, Option.some.injEq] at stepped
        subst after
        rw [length_eq]
        by_cases isPool : i = j
        · simp [findsEmpty, happens, Pc.owed, isPool, BitVec.ofNat_add, add_assoc, add_comm]
        · simp [findsEmpty, happens, Pc.owed, isPool, Ne.symm isPool]
      · rw [quiet (by simp [NoListEvent, event, at_pc, head_eq])]
        simp only [step, advance, at_pc, head_eq, false_and, if_false, Option.some.injEq] at stepped
        subst after
        simp [findsEmpty, event, at_pc, head_eq, goto, Pc.owed]
  | decrement j page =>
      rw [quiet (by simp [NoListEvent, event, at_pc])]
      simp only [step, advance, at_pc, Option.some.injEq] at stepped
      subst after
      have paid : (if page = 0 then cfg.richestLoop 0 0 0 false else .returnPage page).owed cfg i =
          0 := by
        split_ifs
        · exact owed_richestLoop cfg i 0 0 0 false
        · rfl
      simp only [Function.update_self, paid]
      by_cases isPool : i = j
      · subst j
        simp [findsEmpty, event, at_pc, Pc.owed]
      · simp [findsEmpty, event, at_pc, Pc.owed, isPool, Ne.symm isPool]
  | richestTest j richest maxRemain hasPage =>
      rw [quiet (by simp [NoListEvent, event, at_pc])]
      simp only [step, advance, at_pc] at stepped
      split_ifs at stepped
      · rw [Option.some.injEq] at stepped
        subst after
        simp [findsEmpty, event, at_pc, goto, Pc.owed]
      · rw [Option.some.injEq] at stepped
        subst after
        simp only [goto, Function.update_self, owed_richestLoop]
        simp [findsEmpty, event, at_pc, Pc.owed]
  | richestMax j =>
      rw [quiet (by simp [NoListEvent, event, at_pc])]
      simp only [step, advance, at_pc, Option.some.injEq] at stepped
      subst after
      simp only [goto, Function.update_self, owed_richestLoop]
      simp [findsEmpty, event, at_pc, Pc.owed]
  | returnPage page =>
      rw [quiet (by simp [NoListEvent, event, at_pc])]
      simp only [step, advance, at_pc, Option.some.injEq] at stepped
      subst after
      simp [findsEmpty, event, at_pc, Pc.owed]
  | pushLoad page =>
      rw [quiet (by simp [NoListEvent, event, at_pc])]
      simp only [step, advance, at_pc, Option.some.injEq] at stepped
      subst after
      simp [findsEmpty, event, at_pc, goto, Pc.owed]
  | pushStore page expected =>
      rw [quiet (by simp [NoListEvent, event, at_pc])]
      simp only [step, advance, at_pc, Option.some.injEq] at stepped
      subst after
      simp [findsEmpty, event, at_pc, Pc.owed]
  | pushCas page expected =>
      by_cases head_eq : before.localPools (cfg.poolIdx page) = expected
      · have happens : event cfg before (.tick thread) =
            some (.pushes thread (cfg.poolIdx page) page) := by
          simp [event, at_pc, head_eq]
        have length_eq := change.length_of_pushes happens i
        simp only [step, advance, at_pc, head_eq, and_self, if_true, Option.some.injEq] at stepped
        subst after
        rw [length_eq]
        by_cases isPool : i = cfg.poolIdx page
        · subst i
          have one : (1 : Counter) = 1#64 := rfl
          have zero : (0 : Counter) = 0#64 := rfl
          simp only [findsEmpty, happens, Pc.owed, if_true, Function.update_self,
            BitVec.ofNat_add, ← one, ← zero]
          ring
        · simp [findsEmpty, happens, Pc.owed, isPool, Ne.symm isPool]
      · rw [quiet (by simp [NoListEvent, event, at_pc, head_eq])]
        simp only [step, advance, at_pc, head_eq, false_and, if_false, Option.some.injEq] at stepped
        subst after
        simp [findsEmpty, event, at_pc, head_eq, goto, Pc.owed]
  | increment page =>
      rw [quiet (by simp [NoListEvent, event, at_pc])]
      simp only [step, advance, at_pc, Option.some.injEq] at stepped
      subst after
      by_cases isPool : i = cfg.poolIdx page
      · subst i
        simp [findsEmpty, event, at_pc, Pc.owed, BitVec.add_assoc]
      · simp [findsEmpty, event, at_pc, Pc.owed, isPool, Ne.symm isPool]

/-- The account of every pool: the counter and the empty lists found, against the length of the
list and what the calls in progress owe. -/
def Accounts [Fintype Thread] (cfg : Config Thread) (pool : MemoryPool Thread)
    (empties : ℕ → ℕ) (free : ℕ → List Addr) : Prop :=
  ∀ i, pool.localRemainPages i + BitVec.ofNat 64 (empties i) =
    BitVec.ofNat 64 (free i).length + ∑ thread, (pool.pc thread).owed cfg i

/-- A step that moves one thread and is balanced keeps the accounts. -/
theorem Accounts.move [Fintype Thread] {empties : ℕ → ℕ}
    (accounts : Accounts cfg before empties free) {pc : Pc}
    (moved : after.pc = Function.update before.pc thread pc)
    (balanced : ∀ i, Balanced cfg i before action after thread free free') :
    Accounts cfg after (fun i => findsEmpty cfg i before action + empties i) free' := by
  intro i
  have account := accounts i
  have balance := balanced i
  have sums := sum_update_add (Pc.owed cfg i) before.pc thread pc
  rw [Balanced] at balance
  rw [moved, Function.update_self] at balance
  rw [moved, BitVec.ofNat_add]
  linear_combination account + balance - sums

theorem Accounts.step [Fintype Thread] {empties : ℕ → ℕ}
    (accounts : Accounts cfg before empties free) (fresh : PopsFresh cfg before action)
    (stepped : MemoryPool.step cfg before action = some after)
    (change : Change cfg before action after free free') :
    Accounts cfg after (fun i => findsEmpty cfg i before action + empties i) free' := by
  cases action with
  | callAllocate actor =>
      rw [change.lists_eq (by simp [NoListEvent, event])]
      simp only [MemoryPool.step, Option.ite_none_right_eq_some, Option.some.injEq] at stepped
      rcases stepped with ⟨isIdle, rfl⟩
      apply accounts.move rfl
      intro i
      simp [Balanced, findsEmpty, event, goto, isIdle, Pc.owed]
  | callDeallocate actor page =>
      rw [change.lists_eq (by simp [NoListEvent, event])]
      simp only [MemoryPool.step, Option.ite_none_right_eq_some] at stepped
      rcases stepped with ⟨isIdle, stepped⟩
      split at stepped
      · rw [Option.some.injEq] at stepped
        subst after
        simpa [Accounts, findsEmpty, event] using accounts
      · simp only [Option.ite_none_right_eq_some, Option.some.injEq] at stepped
        rcases stepped with ⟨_, rfl⟩
        apply accounts.move rfl
        intro i
        simp [Balanced, findsEmpty, event, isIdle, Pc.owed]
  | tick actor =>
      rcases advance_follows stepped with ⟨pc, moved, _⟩
      exact accounts.move moved (tick_balanced stepped fresh change)
  | spuriousFailure actor =>
      rw [change.lists_eq (by simp [NoListEvent, event])]
      simp only [MemoryPool.step, Option.ite_none_right_eq_some] at stepped
      rcases advance_retries stepped.1 stepped.2 with ⟨pc, rfl, retries⟩
      apply accounts.move rfl
      intro i
      generalize at_pc : before.pc actor = old at retries
      cases retries <;> simp [Balanced, findsEmpty, event, goto, at_pc, Pc.owed]
  | overwrite actor page word =>
      rw [change.lists_eq (by simp [NoListEvent, event])]
      simp only [MemoryPool.step, Option.ite_none_right_eq_some, Option.some.injEq] at stepped
      rcases stepped with ⟨_, rfl⟩
      simpa [Accounts, findsEmpty, event] using accounts

/-- The accounts of a whole run. -/
theorem accounts_of_run [Fintype Thread] {pages : List Addr} (aligned : AlignedPages cfg pages)
    {past : History (MemoryPool Thread) (Action Thread)} {pool : MemoryPool Thread}
    (run : Run (step cfg) (construct cfg pages) past pool)
    (fresh : Guarded (PopsFresh cfg) past) :
    ∃ free, Conserved cfg pages pool free ∧
      Accounts cfg pool (fun i => total (findsEmpty cfg i) past) free := by
  induction run with
  | start =>
      have built := construct_built aligned
      refine ⟨initialFree cfg pages, built.conserved aligned.nodup, ?_⟩
      intro i
      simp [built.remain, built.idle, Pc.owed]
  | step run stepped ih =>
      rcases ih fresh.tail with ⟨free, conserved, accounts⟩
      rcases conserved.step fresh.head stepped with ⟨free', change, conservedAfter⟩
      refine ⟨free', conservedAfter, ?_⟩
      have moved := accounts.step fresh.head stepped change
      intro i
      simp only [total_cons]
      exact moved i

omit [DecidableEq Thread] in
/-- With all pages returned, the drift alone decides how the destructor ends. -/
theorem Accounts.destructor_eq [Fintype Thread] {pages : List Addr} {pool : MemoryPool Thread}
    (aligned : AlignedPages cfg pages) {empties : ℕ → ℕ}
    (accounts : Accounts cfg pool empties free) (conserved : Conserved cfg pages pool free)
    (perPool : pool.pagesPerPool = (construct cfg pages).pagesPerPool)
    (allIdle : ∀ thread, pool.pc thread = .idle) (returned : ∀ thread, pool.held thread = [])
    {fuel : ℕ} (enough : pages.length < fuel) :
    destructor cfg pool fuel =
      if ∀ i < cfg.numPools, empties i % 2 ^ 64 = 0 then
        some (.done ((List.range cfg.numPools).flatMap free))
      else some .assertionFailed := by
  have nothingOwned : ∀ thread, pool.owned thread = [] := by simp [owned, allIdle, returned]
  have counts : ∀ i, pool.localRemainPages i + BitVec.ofNat 64 (empties i) =
      BitVec.ofNat 64 (free i).length := by
    intro i
    rw [accounts i]
    simp [allIdle, Pc.owed]
  have lengths : ∀ i, pool.pagesPerPool i = (free i).length := by
    intro i
    rw [perPool, (construct_built aligned).perPool i,
      (conserved.perm_initialFree aligned.nodup nothingOwned i).length_eq]
  have exact_iff : ∀ i, pool.localRemainPages i = BitVec.ofNat 64 (free i).length ↔
      empties i % 2 ^ 64 = 0 := by
    intro i
    rw [← counts i, left_eq_add]
    constructor
    · intro isZero
      simpa using congrArg BitVec.toNat isZero
    · intro isZero
      apply BitVec.eq_of_toNat_eq
      simpa using isZero
  have short : ∀ i ∈ List.range cfg.numPools, (free i).length < fuel :=
    fun i _ => Nat.lt_of_le_of_lt (conserved.length_le i) enough
  unfold destructor
  simp only [lengths, exact_iff]
  split_ifs with noDrift
  · apply freeLists_of_counts conserved.tracks.linked _ _ short []
    intro i mem
    exact (exact_iff i).mpr (noDrift i (List.mem_range.mp mem))
  · rfl

/-- In every run with fresh pops, whatever the number of calls at a time, a counter differs
from the length of its list by the updates that calls still owe and by the empty lists found.
When all pages are returned, the assertions of the destructor hold exactly if the number of
empty lists found is a multiple of `2 ^ 64` for every pool. -/
theorem counters_drift [Fintype Thread] {pages : List Addr} (aligned : AlignedPages cfg pages)
    {past : History (MemoryPool Thread) (Action Thread)} {pool : MemoryPool Thread}
    (run : Run (step cfg) (construct cfg pages) past pool)
    (fresh : Guarded (PopsFresh cfg) past) :
    ∃ free, (∀ i, Linked pool.next 0 (pool.localPools i) (free i)) ∧
      (∀ i, pool.localRemainPages i + BitVec.ofNat 64 (total (findsEmpty cfg i) past) =
        BitVec.ofNat 64 (free i).length + ∑ thread, (pool.pc thread).owed cfg i) ∧
      ((∀ thread, pool.pc thread = .idle) → (∀ thread, pool.held thread = []) →
        ∀ fuel, pages.length < fuel →
          destructor cfg pool fuel =
            if ∀ i < cfg.numPools, total (findsEmpty cfg i) past % 2 ^ 64 = 0 then
              some (.done ((List.range cfg.numPools).flatMap free))
            else some .assertionFailed) := by
  rcases accounts_of_run aligned run fresh with ⟨free, conserved, accounts⟩
  refine ⟨free, conserved.tracks.linked, accounts, ?_⟩
  intro allIdle returned fuel enough
  exact accounts.destructor_eq aligned conserved (run_pagesPerPool run) allIdle returned enough

/-- Thread `1` finds the list empty while thread `0` has the only page. Thread `0` returns it
before thread `1` compares the counters, so both calls end and the destructor then fails. -/
theorem destructor_after_empty_list :
    ∃ past pool, Run (step onePool) (construct onePool [4096]) past pool ∧
      total (findsEmpty onePool 0) past = 1 ∧
      destructor onePool pool 2 = some .assertionFailed := by
  have aligned : AlignedPages onePool [4096] := ⟨by decide, by decide, by decide, by decide⟩
  have ran := Run.exists_of_perform (step onePool) (construct onePool [4096])
    [.callAllocate 0, .tick 0, .tick 0, .tick 0, .tick 0, .tick 0,
      .callAllocate 1, .tick 1, .tick 1, .callDeallocate 0 4096, .tick 0, .tick 0, .tick 0,
      .tick 0, .tick 1, .tick 1]
    (fun past pool => total (findsEmpty onePool 0) past = 1 &&
      past.all (fun moment => decide (PopsFresh onePool moment.1 moment.2)) &&
      decide (∀ thread, pool.pc thread = .idle) && decide (∀ thread, pool.held thread = []))
    (by decide +kernel)
  rcases ran with ⟨past, pool, run, checked⟩
  simp only [Bool.and_eq_true, decide_eq_true_eq, List.all_eq_true] at checked
  rcases checked with ⟨⟨⟨foundOnce, fresh⟩, allIdle⟩, returned⟩
  rcases counters_drift aligned run fresh with ⟨free, _, _, ends⟩
  refine ⟨past, pool, run, foundOnce, ?_⟩
  rw [ends allIdle returned 2 (by decide), if_neg]
  intro always
  have noDrift := always 0 (by decide)
  rw [foundOnce] at noDrift
  omega

end UserLevelMmap.MemoryPool
