import Mathlib.Algebra.BigOperators.Group.Finset.Basic
import Mathlib.Algebra.Order.BigOperators.Group.Finset
import Mathlib.Data.Fintype.Card
import UserLevelMmap.MemoryPool.Window

/-!
# When `allocate` returns null

`allocate` gives up after a scan of the counters that finds none above zero. The
scan is not atomic, and the counters follow the lists with a delay in both
directions: a counter is `0` for a while when its list already has a page again,
and a page can go onto a pool that the scan has passed. A null result therefore
proves exhaustion only in runs in which a scan passes nothing but empty lists
and nothing is pushed behind a scan.
-/

namespace UserLevelMmap.MemoryPool

variable {Thread : Type}

/-- Every free list is empty. -/
def Exhausted (cfg : Config Thread) (pool : MemoryPool Thread) : Prop :=
  ∀ i < cfg.numPools, pool.localPools i = 0

/-- The states since the last call of `allocate` in the thread, the current one included. -/
def callStates [DecidableEq Thread] (thread : Thread) :
    History (MemoryPool Thread) (Action Thread) → MemoryPool Thread → List (MemoryPool Thread)
  | [], pool => [pool]
  | (before, action) :: past, pool =>
      if action = .callAllocate thread then [pool]
      else pool :: callStates thread past before

/-! ## The conditions on the steps -/

/-- The pool whose counter a scan is about to read, having found no page before it. -/
def Pc.testing : Pc → Option ℕ
  | .richestTest i _ _ false => some i
  | _ => none

/-- A scan without a page yet reads the counter `0` of empty lists only. -/
def PassesEmptyLists (pool : MemoryPool Thread) : Action Thread → Prop
  | .tick thread => ∀ i ∈ (pool.pc thread).testing,
      pool.localRemainPages i = 0 → pool.localPools i = 0
  | _ => True

/-- Nothing is pushed onto a pool that a scan without a page has passed. -/
def PushesAheadOfScans (cfg : Config Thread) (pool : MemoryPool Thread)
    (action : Action Thread) : Prop :=
  match event cfg pool action with
  | some (.pushes _ i _) => ∀ thread, ∀ tested ∈ (pool.pc thread).testing, tested ≤ i
  | _ => True

/-- `allocate` is called only by threads that hold fewer than `ops` pages. -/
def WithinQuota (ops : ℕ) (pool : MemoryPool Thread) : Action Thread → Prop
  | .callAllocate thread => (pool.held thread).length < ops
  | _ => True

instance (pool : MemoryPool Thread) :
    (action : Action Thread) → Decidable (PassesEmptyLists pool action)
  | .tick thread => inferInstanceAs (Decidable (∀ i ∈ (pool.pc thread).testing,
      pool.localRemainPages i = 0 → pool.localPools i = 0))
  | .callAllocate _ => isTrue trivial
  | .callDeallocate _ _ => isTrue trivial
  | .spuriousFailure _ => isTrue trivial
  | .overwrite _ _ _ => isTrue trivial

instance [Fintype Thread] (cfg : Config Thread) (pool : MemoryPool Thread)
    (action : Action Thread) : Decidable (PushesAheadOfScans cfg pool action) :=
  match found : event cfg pool action with
  | some (.pushes _ i _) =>
      decidable_of_iff (∀ thread, ∀ tested ∈ (pool.pc thread).testing, tested ≤ i)
        (by simp [PushesAheadOfScans, found])
  | some (.pops ..) => isTrue (by simp [PushesAheadOfScans, found])
  | some (.loadsHead ..) => isTrue (by simp [PushesAheadOfScans, found])
  | none => isTrue (by simp [PushesAheadOfScans, found])

instance (ops : ℕ) (pool : MemoryPool Thread) :
    (action : Action Thread) → Decidable (WithinQuota ops pool action)
  | .callAllocate thread => inferInstanceAs (Decidable ((pool.held thread).length < ops))
  | .callDeallocate _ _ => isTrue trivial
  | .tick _ => isTrue trivial
  | .spuriousFailure _ => isTrue trivial
  | .overwrite _ _ _ => isTrue trivial

/-- A call that may still take a page for its caller. -/
def Pc.waiting : Pc → ℕ
  | .loadHead _ => 1
  | .loadNext _ _ => 1
  | .popCas _ _ _ => 1
  | .decrement _ page => if page = 0 then 1 else 0
  | .richestTest .. => 1
  | .richestMax _ => 1
  | .returnPage page => if page = 0 then 1 else 0
  | _ => 0

/-! ## The scan -/

/-- The locals of a scan: the indices are in bounds, and as long as no page was
found all lists behind the scan are empty. -/
def Pc.Scan (cfg : Config Thread) (pool : MemoryPool Thread) : Pc → Prop
  | .richestTest i richest maxRemain hasPage =>
      i < cfg.numPools ∧ richest < cfg.numPools ∧
        (hasPage = false → maxRemain = 0 ∧ ∀ j < i, pool.localPools j = 0)
  | .richestMax i => i < cfg.numPools
  | _ => True

theorem toInt_ne_neg_one {index : ℕ} (small : index + 1 < 2 ^ 32) : toInt index ≠ -1 := by
  have reduced : (index : ℤ) % ((2 ^ 32 : ℕ) : ℤ) = index := by omega
  unfold toInt Int.bmod
  rw [reduced]
  dsimp only
  split
  · omega
  · omega

theorem richestLoop_eq_null {cfg : Config Thread} {pool richest : ℕ} {maxRemain : Counter}
    {hasPage : Bool} (few : cfg.numPools < 2 ^ 32) (inBounds : richest < cfg.numPools)
    (isNull : cfg.richestLoop pool richest maxRemain hasPage = .returnPage 0) :
    cfg.numPools ≤ pool ∧ hasPage = false := by
  have notNone : toInt richest ≠ -1 := toInt_ne_neg_one (by omega)
  unfold Config.richestLoop at isNull
  split at isNull
  · cases isNull
  · next outside =>
      refine ⟨by omega, ?_⟩
      cases hasPage with
      | false => rfl
      | true =>
          simp only [Bool.true_eq_false, if_false, if_neg notNone] at isNull
          split at isNull <;> cases isNull

theorem scan_richestLoop {cfg : Config Thread} {pool : MemoryPool Thread} {i richest : ℕ}
    {maxRemain : Counter} {hasPage : Bool} (inBounds : richest < cfg.numPools)
    (passed : hasPage = false → maxRemain = 0 ∧ ∀ j < i, pool.localPools j = 0) :
    (cfg.richestLoop i richest maxRemain hasPage).Scan cfg pool := by
  rcases richestLoop_cases cfg i richest maxRemain hasPage with
    ⟨inside, eq⟩ | eq | ⟨_, _, eq⟩ | eq
  · rw [eq]
    exact ⟨inside, inBounds, passed⟩
  all_goals
    rw [eq]
    trivial

theorem eq_zero_of_not_more {counter : Counter} (notMore : ¬0 < counter) : counter = 0 := by
  simpa using notMore

/-- A step of `allocate` that leads to the return of null is the last test of a
scan, and all lists are empty in the state before it. -/
theorem Follows.to_null {cfg : Config Thread} {pool : MemoryPool Thread} {thread : Thread}
    (few : cfg.numPools < 2 ^ 32) (scan : (pool.pc thread).Scan cfg pool)
    (passes : PassesEmptyLists pool (.tick thread))
    (follows : Follows cfg pool (pool.pc thread) (.returnPage 0)) :
    (pool.pc thread).waiting = 1 ∧ Exhausted cfg pool := by
  simp only [PassesEmptyLists] at passes
  generalize pool.pc thread = old at follows scan passes
  generalize reached : Pc.returnPage 0 = pc at follows
  cases follows with
  | nothingTaken i =>
      have loops := richestLoop_eq_null few cfg.numPools_pos reached.symm
      exact absurd loops.1 (Nat.not_le.mpr cfg.numPools_pos)
  | taken i page notNull =>
      simp only [Pc.returnPage.injEq] at reached
      exact absurd reached.symm notNull
  | notRicher i richest maxRemain hasPage notMore =>
      rcases scan with ⟨inside, inBounds, passed⟩
      rcases richestLoop_eq_null few inBounds reached.symm with ⟨atEnd, rfl⟩
      rcases passed rfl with ⟨rfl, behind⟩
      refine ⟨rfl, ?_⟩
      intro j bound
      by_cases isLast : j = i
      · subst j
        exact passes i rfl (eq_zero_of_not_more notMore)
      · apply behind j
        omega
  | maxRead i =>
      have loops := richestLoop_eq_null few scan reached.symm
      apply absurd loops.2
      simp
  | _ => contradiction

theorem Follows.scan {cfg : Config Thread} {before : MemoryPool Thread} {old pc : Pc}
    (scan : old.Scan cfg before)
    (passes : ∀ i ∈ old.testing, before.localRemainPages i = 0 → before.localPools i = 0)
    (follows : Follows cfg before old pc) : pc.Scan cfg before := by
  cases follows with
  | nothingTaken i => exact scan_richestLoop cfg.numPools_pos (fun _ => ⟨rfl, by simp⟩)
  | richer i richest maxRemain hasPage more => exact scan.1
  | notRicher i richest maxRemain hasPage notMore =>
      rcases scan with ⟨inside, inBounds, passed⟩
      apply scan_richestLoop inBounds
      rintro rfl
      rcases passed rfl with ⟨rfl, behind⟩
      refine ⟨rfl, ?_⟩
      intro j bound
      by_cases isLast : j = i
      · subst j
        exact passes i rfl (eq_zero_of_not_more notMore)
      · apply behind j
        omega
  | maxRead i => exact scan_richestLoop scan (by simp)
  | _ => trivial

section

variable [DecidableEq Thread] {cfg : Config Thread} {before after : MemoryPool Thread}
  {action : Action Thread}

theorem step_head_null (loaded : ∀ thread, (before.pc thread).LoadedPage)
    (stepped : step cfg before action = some after) {i : ℕ} (isNull : before.localPools i = 0)
    (notPushed : ∀ pusher page, event cfg before action ≠ some (.pushes pusher i page)) :
    after.localPools i = 0 := by
  cases step_effect stepped with
  | quiet heads links owners casOld noCas => rwa [heads]
  | overwritten thread page word holds noCas result => rwa [result]
  | prepared thread page expected at_pc noCas result => rwa [result]
  | popped thread j page next at_pc head_eq happens result =>
      have page_ne : page ≠ 0 := by
        simpa [at_pc, Pc.LoadedPage] using loaded thread
      have distinct : i ≠ j := by
        rintro rfl
        exact page_ne (head_eq ▸ isNull)
      simpa [result, distinct] using isNull
  | pushed thread page expected at_pc head_eq happens result =>
      have distinct : i ≠ cfg.poolIdx page := by
        rintro rfl
        exact notPushed thread page happens
      simpa [result, distinct] using isNull

theorem Pc.Scan.kept {pc : Pc} (scan : pc.Scan cfg before)
    (loaded : ∀ thread, (before.pc thread).LoadedPage)
    (ahead : ∀ {pusher : Thread} {i : ℕ} {page : Addr},
      event cfg before action = some (.pushes pusher i page) → ∀ tested ∈ pc.testing, tested ≤ i)
    (stepped : step cfg before action = some after) : pc.Scan cfg after := by
  cases pc with
  | richestTest i richest maxRemain hasPage =>
      refine ⟨scan.1, scan.2.1, ?_⟩
      rintro rfl
      rcases scan.2.2 rfl with ⟨isZero, behind⟩
      refine ⟨isZero, ?_⟩
      intro j passed
      apply step_head_null loaded stepped (behind j passed)
      intro pusher page happens
      have notBehind := ahead happens i rfl
      omega
  | richestMax i => exact scan
  | _ => trivial

theorem step_scan (loaded : ∀ thread, (before.pc thread).LoadedPage)
    (scan : ∀ thread, (before.pc thread).Scan cfg before)
    (passes : PassesEmptyLists before action) (ahead : PushesAheadOfScans cfg before action)
    (stepped : step cfg before action = some after) (thread : Thread) :
    (after.pc thread).Scan cfg after := by
  have threadStep := step_thread stepped thread
  generalize after.pc thread = pc at threadStep
  cases threadStep with
  | unmoved =>
      refine (scan thread).kept loaded ?_ stepped
      intro pusher i page happens
      simp only [PushesAheadOfScans, happens] at ahead
      exact ahead thread
  | callsAllocate acts isIdle => trivial
  | callsDeallocate page acts isIdle notNull holds => trivial
  | advances pc acts follows =>
      subst acts
      have scanned := follows.scan (scan thread) passes
      refine scanned.kept loaded ?_ stepped
      -- A thread that pushes is not in a scan after its step.
      intro pusher i page happens tested isTesting
      rcases event_pushes happens with ⟨rfl, expected, at_pc⟩
      rw [at_pc] at follows
      cases follows <;> simp [Pc.testing] at isTesting
  | retries pc acts retries =>
      generalize before.pc thread = old at retries
      cases retries <;> trivial

/-! ## The quota -/

omit [DecidableEq Thread] in
theorem waiting_richestLoop_le (cfg : Config Thread) (pool richest : ℕ) (maxRemain : Counter)
    (hasPage : Bool) : (cfg.richestLoop pool richest maxRemain hasPage).waiting ≤ 1 := by
  rcases richestLoop_cases cfg pool richest maxRemain hasPage with
    ⟨_, eq⟩ | eq | ⟨_, _, eq⟩ | eq <;> simp [eq, Pc.waiting]

omit [DecidableEq Thread] in
theorem Follows.waiting_le {old pc : Pc} (follows : Follows cfg before old pc) :
    pc.waiting ≤ old.waiting := by
  cases follows with
  | nothingTaken i => exact waiting_richestLoop_le cfg 0 0 0 false
  | notRicher i richest maxRemain hasPage notMore =>
      exact waiting_richestLoop_le cfg (i + 1) richest maxRemain hasPage
  | maxRead i => exact waiting_richestLoop_le cfg (i + 1) i _ true
  | popSucceeded i page next head_eq =>
      simp only [Pc.waiting]
      split <;> simp
  | _ => simp [Pc.waiting]

/-- A page is owned, or may still be taken, within the quota of each thread. -/
def Quota (ops : ℕ) (pool : MemoryPool Thread) : Prop :=
  ∀ thread, (pool.owned thread).length + (pool.pc thread).waiting ≤ ops

theorem step_waiting_le {ops : ℕ} (within : WithinQuota ops before action)
    (stepped : step cfg before action = some after) (thread : Thread) :
    (after.pc thread).waiting ≤ (before.pc thread).waiting ∨
      (before.owned thread).length < ops ∧ (after.pc thread).waiting = 1 := by
  have threadStep := step_thread stepped thread
  generalize after.pc thread = pc at threadStep
  cases threadStep with
  | unmoved => exact Or.inl le_rfl
  | callsAllocate acts isIdle =>
      subst acts
      exact Or.inr ⟨by simpa [owned, isIdle, WithinQuota] using within, rfl⟩
  | callsDeallocate page acts isIdle notNull holds => exact Or.inl (Nat.zero_le _)
  | advances pc acts follows => exact Or.inl follows.waiting_le
  | retries pc acts retries =>
      generalize before.pc thread = old at retries
      cases retries <;> exact Or.inl (by simp [Pc.waiting])

theorem step_quota {ops : ℕ} (loaded : ∀ thread, (before.pc thread).LoadedPage)
    (quota : Quota ops before) (within : WithinQuota ops before action)
    (stepped : step cfg before action = some after) : Quota ops after := by
  intro thread
  have quotaBefore := quota thread
  have waiting := step_waiting_le within stepped thread
  cases step_effect stepped with
  | quiet heads links owners casOld noCas =>
      rw [(owners thread).length_eq]
      omega
  | overwritten holder page word holds noCas result =>
      simpa [result, owned] using quotaBefore
  | prepared pusher page expected at_pc noCas result =>
      by_cases isThread : thread = pusher
      · subst thread
        simpa [result, owned, at_pc, Pc.waiting] using quotaBefore
      · simpa [result, owned, isThread] using quotaBefore
  | popped taker i page next at_pc head_eq happens result =>
      have page_ne : page ≠ 0 := by
        simpa [at_pc, Pc.LoadedPage] using loaded taker
      by_cases isThread : thread = taker
      · subst thread
        simpa [result, owned, at_pc, Pc.waiting, page_ne, Nat.add_comm] using quotaBefore
      · simpa [result, owned, isThread] using quotaBefore
  | pushed giver page expected at_pc head_eq happens result =>
      by_cases isThread : thread = giver
      · subst thread
        simp only [owned, at_pc, inFlight_pushCas, List.cons_append, List.nil_append,
          List.length_cons, Pc.waiting, Nat.add_zero] at quotaBefore
        simp only [result, owned, Function.update_self, inFlight_increment, List.nil_append,
          Pc.waiting, Nat.add_zero]
        omega
      · simpa [result, owned, isThread] using quotaBefore

omit [DecidableEq Thread] in
theorem Conserved.quota_full [Fintype Thread] {pages : List Addr} {free : ℕ → List Addr}
    (conserved : Conserved cfg pages before free) (nodup : pages.Nodup)
    (exhausted : Exhausted cfg before) {ops : ℕ} (quota : Quota ops before)
    (enough : Fintype.card Thread * ops ≤ pages.length) (thread : Thread) :
    ops ≤ (before.owned thread).length := by
  classical
  have allOwned : pages.toFinset ⊆ Finset.univ.biUnion
      (fun owner => (before.owned owner).toFinset) := by
    intro page mem
    rw [List.mem_toFinset, ← conserved.records_iff] at mem
    rcases mem with ⟨i | owner, listed⟩
    · have bound : i < cfg.numPools := by
        rw [← conserved.home listed]
        exact Nat.mod_lt _ cfg.numPools_pos
      have isEmpty := (conserved.tracks.linked i).eq_nil_iff.mpr (exhausted i bound)
      simp [ledger, isEmpty] at listed
    · exact Finset.mem_biUnion.mpr ⟨owner, Finset.mem_univ _, List.mem_toFinset.mpr listed⟩
  have counted : pages.length ≤ ∑ owner, (before.owned owner).length := by
    calc pages.length
        = pages.toFinset.card := (List.toFinset_card_of_nodup nodup).symm
      _ ≤ _ := Finset.card_le_card allOwned
      _ ≤ ∑ owner, (before.owned owner).toFinset.card := Finset.card_biUnion_le
      _ ≤ ∑ owner, (before.owned owner).length :=
          Finset.sum_le_sum (fun owner _ => List.toFinset_card_le _)
  by_contra short
  have fewer : ∑ owner, (before.owned owner).length < ∑ _owner : Thread, ops := by
    apply Finset.sum_lt_sum
    · intro owner _
      exact le_trans (Nat.le_add_right _ _) (quota owner)
    · exact ⟨thread, Finset.mem_univ _, Nat.not_le.mp short⟩
  rw [Finset.sum_const, Finset.card_univ, Nat.nsmul_eq_mul] at fewer
  omega

/-! ## Runs -/

theorem scan_of_run {pages : List Addr} (aligned : AlignedPages cfg pages)
    {past : History (MemoryPool Thread) (Action Thread)} {pool : MemoryPool Thread}
    (run : Run (step cfg) (construct cfg pages) past pool)
    (passes : Guarded PassesEmptyLists past) (ahead : Guarded (PushesAheadOfScans cfg) past) :
    (∀ thread, (pool.pc thread).LoadedPage) ∧ ∀ thread, (pool.pc thread).Scan cfg pool := by
  induction run with
  | start =>
      have built := construct_built aligned
      exact ⟨by simp [built.idle, Pc.LoadedPage], by simp [built.idle, Pc.Scan]⟩
  | step run stepped ih =>
      rcases ih passes.tail ahead.tail with ⟨loaded, scan⟩
      exact ⟨step_loaded loaded stepped,
        step_scan loaded scan passes.head ahead.head stepped⟩

theorem step_to_null {thread : Thread} (few : cfg.numPools < 2 ^ 32)
    (scan : (before.pc thread).Scan cfg before) (passes : PassesEmptyLists before action)
    (stepped : step cfg before action = some after)
    (returnsNull : after.pc thread = .returnPage 0) :
    before.pc thread = .returnPage 0 ∨
      (before.pc thread).waiting = 1 ∧ Exhausted cfg before := by
  have threadStep := step_thread stepped thread
  generalize after.pc thread = pc at threadStep returnsNull
  cases threadStep with
  | unmoved => exact Or.inl returnsNull
  | callsAllocate acts isIdle => contradiction
  | callsDeallocate page acts isIdle notNull holds => contradiction
  | advances pc acts follows =>
      subst acts returnsNull
      exact Or.inr (follows.to_null few scan passes)
  | retries pc acts retries =>
      subst returnsNull
      generalize before.pc thread = old at retries
      cases retries

theorem exists_exhausted_of_null {pages : List Addr} (aligned : AlignedPages cfg pages)
    (few : cfg.numPools < 2 ^ 32) {past : History (MemoryPool Thread) (Action Thread)}
    {pool : MemoryPool Thread} (run : Run (step cfg) (construct cfg pages) past pool)
    (passes : Guarded PassesEmptyLists past) (ahead : Guarded (PushesAheadOfScans cfg) past)
    {thread : Thread} (returnsNull : pool.pc thread = .returnPage 0) :
    ∃ instant ∈ callStates thread past pool, Exhausted cfg instant := by
  induction run with
  | start => simp [(construct_built aligned).idle] at returnsNull
  | @step past before after action run stepped ih =>
      rcases scan_of_run aligned run passes.tail ahead.tail with ⟨_, scan⟩
      have notCall : action ≠ .callAllocate thread := by
        rintro rfl
        simp only [step, Option.ite_none_right_eq_some, Option.some.injEq] at stepped
        rw [← stepped.2] at returnsNull
        simp [goto] at returnsNull
      simp only [callStates, if_neg notCall]
      rcases step_to_null few (scan thread) passes.head stepped returnsNull with
        already | ⟨_, exhausted⟩
      · rcases ih passes.tail ahead.tail already with ⟨instant, mem, exhausted⟩
        exact ⟨instant, List.mem_cons_of_mem _ mem, exhausted⟩
      · refine ⟨before, List.mem_cons_of_mem _ ?_, exhausted⟩
        cases past with
        | nil => simp [callStates]
        | cons moment older =>
            simp only [callStates]
            split <;> simp

theorem quota_of_run {pages : List Addr} (aligned : AlignedPages cfg pages) {ops : ℕ}
    {past : History (MemoryPool Thread) (Action Thread)} {pool : MemoryPool Thread}
    (run : Run (step cfg) (construct cfg pages) past pool)
    (within : Guarded (WithinQuota ops) past) :
    (∀ thread, (pool.pc thread).LoadedPage) ∧ Quota ops pool := by
  induction run with
  | start =>
      have built := construct_built aligned
      refine ⟨by simp [built.idle, Pc.LoadedPage], ?_⟩
      intro thread
      simp [built.owned_eq_nil, built.idle, Pc.waiting]
  | step run stepped ih =>
      rcases ih within.tail with ⟨loaded, quota⟩
      exact ⟨step_loaded loaded stepped, step_quota loaded quota within.head stepped⟩

theorem never_null_of_quota [Fintype Thread] {pages : List Addr}
    (aligned : AlignedPages cfg pages) (few : cfg.numPools < 2 ^ 32) {ops : ℕ}
    (enough : Fintype.card Thread * ops ≤ pages.length)
    {past : History (MemoryPool Thread) (Action Thread)} {pool : MemoryPool Thread}
    (run : Run (step cfg) (construct cfg pages) past pool)
    (passes : Guarded PassesEmptyLists past) (ahead : Guarded (PushesAheadOfScans cfg) past)
    (fresh : Guarded (PopsFresh cfg) past) (within : Guarded (WithinQuota ops) past)
    (thread : Thread) : pool.pc thread ≠ .returnPage 0 := by
  intro returnsNull
  induction run with
  | start => simp [(construct_built aligned).idle] at returnsNull
  | @step past before after action run stepped ih =>
      rcases scan_of_run aligned run passes.tail ahead.tail with ⟨_, scan⟩
      rcases step_to_null few (scan thread) passes.head stepped returnsNull with
        already | ⟨waits, exhausted⟩
      · exact ih passes.tail ahead.tail fresh.tail within.tail already
      · rcases conserved_of_popsFresh aligned run fresh.tail with ⟨free, conserved⟩
        rcases quota_of_run aligned run within.tail with ⟨_, quota⟩
        have full := conserved.quota_full aligned.nodup exhausted quota enough thread
        have room := quota thread
        omega

/-- In every run whose scans pass empty lists only and whose pushes keep ahead of
the scans, `allocate` returns null only if all lists were empty at some instant of
the call; and with fresh pops it never does when the pages cover all quotas. -/
theorem exhausted_of_null_result [Fintype Thread] {pages : List Addr}
    (aligned : AlignedPages cfg pages) (few : cfg.numPools < 2 ^ 32)
    {past : History (MemoryPool Thread) (Action Thread)} {pool : MemoryPool Thread}
    (run : Run (step cfg) (construct cfg pages) past pool)
    (passes : Guarded PassesEmptyLists past) (ahead : Guarded (PushesAheadOfScans cfg) past) :
    (∀ thread, pool.pc thread = .returnPage 0 →
        ∃ instant ∈ callStates thread past pool, Exhausted cfg instant) ∧
      (Guarded (PopsFresh cfg) past → ∀ ops, Fintype.card Thread * ops ≤ pages.length →
        Guarded (WithinQuota ops) past → ∀ thread, pool.pc thread ≠ .returnPage 0) := by
  constructor
  · intro thread returnsNull
    exact exists_exhausted_of_null aligned few run passes ahead returnsNull
  · intro fresh ops enough within thread
    exact never_null_of_quota aligned few enough run passes ahead fresh within thread

end

/-- Thread `0` has taken the only page without updating the counter; thread `1`
returns null. With two pages and a quota of one page both threads get one. -/
theorem exhausted_after_last_pop :
    (∃ past pool, Run (step onePool) (construct onePool [4096]) past pool ∧
      pool.pc 1 = .returnPage 0 ∧
        ∃ instant ∈ callStates 1 past pool, Exhausted onePool instant) ∧
    ∃ past pool, Run (step onePool) (construct onePool [4096, 8192]) past pool ∧
      past.length = 12 ∧ ∀ thread, pool.pc thread ≠ .returnPage 0 := by
  constructor
  · have ran := Run.exists_of_perform (step onePool)
      (construct onePool [4096])
      [.callAllocate 0, .tick 0, .tick 0, .tick 0,
        .callAllocate 1, .tick 1, .tick 1, .tick 1]
      (fun past pool =>
        past.all (fun moment => decide (PassesEmptyLists moment.1 moment.2)) &&
        past.all (fun moment => decide (PushesAheadOfScans onePool moment.1 moment.2)) &&
        decide (pool.pc 1 = .returnPage 0))
      (by decide +kernel)
    rcases ran with ⟨past, pool, run, checked⟩
    simp only [Bool.and_eq_true, decide_eq_true_eq, List.all_eq_true] at checked
    rcases checked with ⟨⟨passes, ahead⟩, returnsNull⟩
    have aligned : AlignedPages onePool [4096] := ⟨by decide, by decide, by decide, by decide⟩
    exact ⟨past, pool, run, returnsNull,
      (exhausted_of_null_result aligned (by decide) run passes ahead).1 1 returnsNull⟩
  · have ran := Run.exists_of_perform (step onePool)
      (construct onePool [4096, 8192])
      [.callAllocate 0, .callAllocate 1, .tick 0, .tick 1, .tick 0, .tick 1,
        .tick 1, .tick 1, .tick 1, .overwrite 1 8192 42, .tick 0, .tick 0]
      (fun past _ => past.length = 12 &&
        past.all (fun moment => decide (PassesEmptyLists moment.1 moment.2)) &&
        past.all (fun moment => decide (PushesAheadOfScans onePool moment.1 moment.2)) &&
        past.all (fun moment => decide (PopsFresh onePool moment.1 moment.2)) &&
        past.all (fun moment => decide (WithinQuota 1 moment.1 moment.2)))
      (by decide +kernel)
    rcases ran with ⟨past, pool, run, checked⟩
    simp only [Bool.and_eq_true, decide_eq_true_eq, List.all_eq_true] at checked
    rcases checked with ⟨⟨⟨⟨length_eq, passes⟩, ahead⟩, fresh⟩, within⟩
    exact ⟨past, pool, run, length_eq,
      (exhausted_of_null_result onePool_aligned (by decide) run passes ahead).2 fresh 1
        (by decide) within⟩

/-- Three pools shared by six threads; all but the first one start with the last pool. -/
def threePools : Config (Fin 6) where
  numPools := 3
  pageSize := 4096
  hash thread := if thread = 0 then 0 else 2
  numPools_pos := by decide
  page_fits := page_fits_4096

/-- Two pages for each of three pools, of which one is in pool `0`, one in pool `1` and four are
in pool `2`. -/
def sixPages : List ℕ :=
  [12288, 16384, 20480, 32768, 45056, 57344]

/-- A quota of one page for each of the six threads and six pages. Thread `3`
takes the page of pool `0` and returns it, but the counters of the pools `0` and
`2` have been decremented for empty lists in between, so its second scan reads
three zeros while the page is on list `0`. -/
theorem null_result_with_free_page :
    (¬∀ (past : History (MemoryPool (Fin 6)) (Action (Fin 6))) (pool : MemoryPool (Fin 6)),
      AlignedPages threePools sixPages →
        Run (step threePools) (construct threePools sixPages) past pool →
          pool.pc 3 = .returnPage 0 →
            ∃ instant ∈ callStates 3 past pool, Exhausted threePools instant) ∧
    ¬∀ (past : History (MemoryPool (Fin 6)) (Action (Fin 6))) (pool : MemoryPool (Fin 6)),
      AlignedPages threePools sixPages →
        Run (step threePools) (construct threePools sixPages) past pool →
          Guarded (WithinQuota 1) past → pool.pc 3 ≠ .returnPage 0 := by
  have aligned : AlignedPages threePools sixPages :=
    ⟨by decide, by decide, by decide, by decide⟩
  have ran := Run.exists_of_perform (step threePools)
    (construct threePools sixPages)
    [.callAllocate 4, .tick 4, .tick 4, .tick 4, .tick 4, .tick 4,
      .callAllocate 5, .tick 5, .tick 5, .tick 5, .tick 5, .tick 5,
      .callAllocate 0,
      .callAllocate 1, .tick 1, .tick 1, .tick 1,
      .callAllocate 2, .tick 2, .tick 2, .tick 2,
      .callAllocate 3, .tick 3, .tick 3, .tick 3, .tick 3, .tick 3, .tick 3,
      .tick 3, .tick 3, .tick 3,
      .tick 0, .tick 0, .tick 0, .tick 0, .tick 0, .tick 0, .tick 0, .tick 0, .tick 0, .tick 0,
      .tick 0, .tick 3, .tick 3,
      .callDeallocate 3 12288, .tick 3, .tick 3, .tick 3, .tick 3,
      .callAllocate 3, .tick 3, .tick 3, .tick 3, .tick 3, .tick 3]
    (fun past pool =>
      past.all (fun moment => decide (WithinQuota 1 moment.1 moment.2)) &&
      decide (pool.pc 3 = .returnPage 0) &&
      (callStates 3 past pool).all (fun instant => decide (instant.localPools 0 ≠ 0)))
    (by decide +kernel)
  rcases ran with ⟨past, pool, run, checked⟩
  simp only [Bool.and_eq_true, decide_eq_true_eq, List.all_eq_true] at checked
  rcases checked with ⟨⟨within, returnsNull⟩, nonempty⟩
  constructor
  · intro always
    rcases always past pool aligned run returnsNull with ⟨instant, mem, exhausted⟩
    exact nonempty instant mem (exhausted 0 (by decide))
  · intro always
    exact always past pool aligned run within returnsNull

end UserLevelMmap.MemoryPool
