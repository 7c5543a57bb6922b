import UserLevelMmap.MemoryPool.Exclusive

/-!
# Conservation of pages under push-free windows

The window of a pop reaches from the load of the head to the successful
compare-and-swap. When no push lands on the list inside the window, a page that
has left the list cannot come back to it, so a head that still equals the loaded
page has been on the list all the time and its `next` word was never written.
Hence every pop installs the current successor of the page it takes, no page is
lost, and the lists together with the owners are the pages of the constructor.

Runs with one call at a time are an instance: their windows contain no step of
another call.
-/

namespace UserLevelMmap.MemoryPool

variable {Thread : Type}

/-- The free lists and the owners are a partition of the pages of the constructor. -/
structure Conserved (cfg : Config Thread) (pages : List Addr) (pool : MemoryPool Thread)
    (free : ℕ → List Addr) : Prop where
  tracks : Tracks pool free
  home : ∀ {i : ℕ} {page : Addr}, page ∈ free i → cfg.poolIdx page = i
  records_iff : ∀ page, (pool.ledger free).Records page ↔ page ∈ pages

theorem Built.conserved {cfg : Config Thread} {pages : List Addr} {pool : MemoryPool Thread}
    (built : Built cfg pages pool) (nodup : pages.Nodup) :
    Conserved cfg pages pool (initialFree cfg pages) where
  tracks := built.tracks nodup
  home mem := (mem_initialFree.mp mem).2
  records_iff := built.records_iff

namespace Conserved

variable {cfg : Config Thread} {pages : List Addr} {pool : MemoryPool Thread}
  {free : ℕ → List Addr}

theorem perm_initialFree (conserved : Conserved cfg pages pool free) (nodup : pages.Nodup)
    (returned : ∀ thread, pool.owned thread = []) (i : ℕ) :
    (free i).Perm (initialFree cfg pages i) := by
  have nodupFree : (free i).Nodup := conserved.tracks.exclusive.nodup (.free i)
  have nodupInitial : (initialFree cfg pages i).Nodup :=
    List.nodup_reverse.mpr (nodup.filter _)
  rw [List.perm_ext_iff_of_nodup nodupFree nodupInitial]
  intro page
  rw [mem_initialFree]
  constructor
  · intro mem
    exact ⟨(conserved.records_iff page).mp ⟨.free i, mem⟩, conserved.home mem⟩
  · rintro ⟨mem, here⟩
    rcases (conserved.records_iff page).mpr mem with ⟨j | thread, memPlace⟩
    · have same : j = i := by rw [← conserved.home memPlace, here]
      subst j
      exact memPlace
    · simp [ledger, returned] at memPlace

end Conserved

theorem Change.home {cfg : Config Thread} {before after : MemoryPool Thread}
    {action : Action Thread} {free free' : ℕ → List Addr}
    (change : Change cfg before action after free free')
    (home : ∀ {i : ℕ} {page : Addr}, page ∈ free i → cfg.poolIdx page = i)
    {i : ℕ} {page : Addr} (mem : page ∈ free' i) : cfg.poolIdx page = i := by
  cases change with
  | stay _ lists owners =>
      subst lists
      exact home mem
  | taken thread j taken lost _ listed lists kept owner owners =>
      by_cases isPool : i = j
      · subst i
        apply home
        rw [listed]
        exact List.mem_cons_of_mem _ (List.mem_append_right _ mem)
      · rw [lists i isPool] at mem
        exact home mem
  | given thread given _ listed lists owner owners =>
      by_cases isPool : i = cfg.poolIdx given
      · subst i
        rw [listed, List.mem_cons] at mem
        rcases mem with rfl | mem
        · rfl
        · exact home mem
      · rw [lists i isPool] at mem
        exact home mem

theorem Change.mem_before {cfg : Config Thread} {before after : MemoryPool Thread}
    {action : Action Thread} {free free' : ℕ → List Addr}
    (change : Change cfg before action after free free') {i : ℕ} {page : Addr}
    (notPushed : ∀ pusher pushed, event cfg before action ≠ some (.pushes pusher i pushed))
    (mem : page ∈ free' i) : page ∈ free i := by
  cases change with
  | stay _ lists owners => rwa [lists] at mem
  | taken thread j taken lost _ listed lists kept owner owners =>
      by_cases isPool : i = j
      · subst i
        rw [listed]
        exact List.mem_cons_of_mem _ (List.mem_append_right _ mem)
      · rwa [lists i isPool] at mem
  | given thread given happens listed lists owner owners =>
      by_cases isPool : i = cfg.poolIdx given
      · subst i
        exact absurd happens (notPushed thread given)
      · rwa [lists i isPool] at mem

/-- The steps that an event comes from. -/
theorem event_eq_some {cfg : Config Thread} {pool : MemoryPool Thread} {action : Action Thread}
    {occurs : Event Thread} (happens : event cfg pool action = some occurs) :
    ∃ thread, action = .tick thread ∧
      ((∃ i, occurs = .loadsHead thread i ∧ pool.pc thread = .loadHead i) ∨
        (∃ i page next, occurs = .pops thread i page next ∧
          pool.pc thread = .popCas i page next ∧ pool.localPools i = page) ∨
        ∃ page expected, occurs = .pushes thread (cfg.poolIdx page) page ∧
          pool.pc thread = .pushCas page expected) := by
  unfold event at happens
  split at happens
  · next thread =>
      refine ⟨thread, rfl, ?_⟩
      split at happens
      · next i at_pc =>
          rw [Option.some.injEq] at happens
          exact Or.inl ⟨i, happens.symm, at_pc⟩
      · next i page next at_pc =>
          simp only [Option.ite_none_right_eq_some, Option.some.injEq] at happens
          exact Or.inr (Or.inl ⟨i, page, next, happens.2.symm, at_pc, happens.1⟩)
      · next page expected at_pc =>
          simp only [Option.ite_none_right_eq_some, Option.some.injEq] at happens
          exact Or.inr (Or.inr ⟨page, expected, happens.2.symm, at_pc⟩)
      · contradiction
  · contradiction

theorem event_loadsHead {cfg : Config Thread} {pool : MemoryPool Thread}
    {action : Action Thread} {thread : Thread} {i : ℕ}
    (happens : event cfg pool action = some (.loadsHead thread i)) :
    pool.pc thread = .loadHead i := by
  rcases event_eq_some happens with
    ⟨actor, _, ⟨j, same, at_pc⟩ | ⟨_, _, _, same, _⟩ | ⟨_, _, same, _⟩⟩
  · cases same
    exact at_pc
  · cases same
  · cases same

theorem event_pops {cfg : Config Thread} {pool : MemoryPool Thread}
    {action : Action Thread} {thread : Thread} {i : ℕ} {page next : Addr}
    (happens : event cfg pool action = some (.pops thread i page next)) :
    pool.pc thread = .popCas i page next ∧ pool.localPools i = page := by
  rcases event_eq_some happens with
    ⟨actor, _, ⟨_, same, _⟩ | ⟨_, _, _, same, current⟩ | ⟨_, _, same, _⟩⟩
  · cases same
  · cases same
    exact current
  · cases same

theorem event_pushes {cfg : Config Thread} {pool : MemoryPool Thread} {actor thread : Thread}
    {i : ℕ} {page : Addr}
    (happens : event cfg pool (.tick actor) = some (.pushes thread i page)) :
    thread = actor ∧ ∃ expected, pool.pc actor = .pushCas page expected := by
  rcases event_eq_some happens with
    ⟨ticking, isActor, ⟨_, same, _⟩ | ⟨_, _, _, same, _⟩ | ⟨_, expected, same, at_pc⟩⟩
  · cases same
  · cases same
  · cases isActor
    cases same
    exact ⟨rfl, expected, at_pc⟩

variable [DecidableEq Thread]

theorem Conserved.step {cfg : Config Thread} {pages : List Addr}
    {before after : MemoryPool Thread} {action : Action Thread} {free : ℕ → List Addr}
    (conserved : Conserved cfg pages before free) (fresh : PopsFresh cfg before action)
    (stepped : MemoryPool.step cfg before action = some after) :
    ∃ free', Change cfg before action after free free' ∧ Conserved cfg pages after free' := by
  rcases conserved.tracks.step fresh.behind stepped with ⟨free', change, tracks⟩
  refine ⟨free', change, tracks, change.home conserved.home, ?_⟩
  intro page
  rw [← conserved.records_iff page]
  exact ⟨change.records conserved.tracks.exclusive,
    change.records_of_fresh conserved.tracks.exclusive fresh⟩

theorem conserved_of_popsFresh {cfg : Config Thread} {pages : List Addr}
    (aligned : AlignedPages cfg pages) {past : History (MemoryPool Thread) (Action Thread)}
    {pool : MemoryPool Thread} (run : Run (step cfg) (construct cfg pages) past pool)
    (guarded : Guarded (PopsFresh cfg) past) : ∃ free, Conserved cfg pages pool free := by
  refine run.invariant (PopsFresh cfg) (fun pool => ∃ free, Conserved cfg pages pool free)
    ⟨_, (construct_built aligned).conserved aligned.nodup⟩ ?_ guarded
  rintro before after action ⟨free, conserved⟩ fresh stepped
  rcases conserved.step fresh stepped with ⟨free', _, conservedAfter⟩
  exact ⟨free', conservedAfter⟩

/-! ## Windows -/

/-- Since the last head load of the thread, which was on this pool, nothing was
pushed onto the pool. -/
def PushFreeSince (cfg : Config Thread) (thread : Thread) (i : ℕ) :
    History (MemoryPool Thread) (Action Thread) → Prop
  | [] => False
  | (pool, action) :: past =>
      match event cfg pool action with
      | some (.loadsHead loader j) =>
          if loader = thread then j = i else PushFreeSince cfg thread i past
      | some (.pushes _ j _) => j ≠ i ∧ PushFreeSince cfg thread i past
      | _ => PushFreeSince cfg thread i past

/-- No `deallocate` pushes onto a pool between the head load and the successful
compare-and-swap of an `allocate` on this pool. -/
def PushFreeWindows (cfg : Config Thread) :
    History (MemoryPool Thread) (Action Thread) → Prop
  | [] => True
  | (pool, action) :: past =>
      PushFreeWindows cfg past ∧
        match event cfg pool action with
        | some (.pops thread i _ _) => PushFreeSince cfg thread i past
        | _ => True

instance (cfg : Config Thread) (thread : Thread) (i : ℕ) :
    (past : History (MemoryPool Thread) (Action Thread)) →
      Decidable (PushFreeSince cfg thread i past)
  | [] => isFalse id
  | (pool, action) :: past =>
      have := instDecidablePushFreeSince cfg thread i past
      match found : event cfg pool action with
      | some (.loadsHead loader j) =>
          decidable_of_iff (if loader = thread then j = i else PushFreeSince cfg thread i past)
            (by simp [PushFreeSince, found])
      | some (.pushes _ j _) =>
          decidable_of_iff (j ≠ i ∧ PushFreeSince cfg thread i past)
            (by simp [PushFreeSince, found])
      | some (.pops ..) =>
          decidable_of_iff (PushFreeSince cfg thread i past) (by simp [PushFreeSince, found])
      | none =>
          decidable_of_iff (PushFreeSince cfg thread i past) (by simp [PushFreeSince, found])

instance (cfg : Config Thread) :
    (past : History (MemoryPool Thread) (Action Thread)) → Decidable (PushFreeWindows cfg past)
  | [] => isTrue trivial
  | (pool, action) :: past =>
      have := instDecidablePushFreeWindows cfg past
      match found : event cfg pool action with
      | some (.pops thread i _ _) =>
          decidable_of_iff (PushFreeWindows cfg past ∧ PushFreeSince cfg thread i past)
            (by simp [PushFreeWindows, found])
      | some (.pushes ..) =>
          decidable_of_iff (PushFreeWindows cfg past) (by simp [PushFreeWindows, found])
      | some (.loadsHead ..) =>
          decidable_of_iff (PushFreeWindows cfg past) (by simp [PushFreeWindows, found])
      | none =>
          decidable_of_iff (PushFreeWindows cfg past) (by simp [PushFreeWindows, found])

/-- While its window is push-free, a pop holds the current successor of a listed page. -/
def CurrentLinks (cfg : Config Thread) (past : History (MemoryPool Thread) (Action Thread))
    (pool : MemoryPool Thread) (free : ℕ → List Addr) : Prop :=
  ∀ {thread : Thread} {i : ℕ} {page next : Addr},
    pool.pc thread = .popCas i page next → PushFreeSince cfg thread i past →
      page ∈ free i → next = pool.next page

/-- The window of a thread that is not loading a head is the longer one shortened. -/
theorem pushFreeSince_tail {cfg : Config Thread} {thread : Thread} {i : ℕ}
    {past : History (MemoryPool Thread) (Action Thread)} {pool : MemoryPool Thread}
    {action : Action Thread} (notLoading : ∀ j, pool.pc thread ≠ .loadHead j)
    (pushFree : PushFreeSince cfg thread i ((pool, action) :: past)) :
    PushFreeSince cfg thread i past ∧
      ∀ pusher page, event cfg pool action ≠ some (.pushes pusher i page) := by
  unfold PushFreeSince at pushFree
  split at pushFree
  · next loader j happens =>
      rw [happens]
      split at pushFree
      · next isThread =>
          subst loader
          exact absurd (event_loadsHead happens) (notLoading j)
      · exact ⟨pushFree, by simp⟩
  · next pusher j page happens =>
      rw [happens]
      refine ⟨pushFree.2, ?_⟩
      intro other pushed same
      simp only [Option.some.injEq, Event.pushes.injEq] at same
      exact pushFree.1 same.2.1
  · next notLoad notPush =>
      exact ⟨pushFree, fun pusher page => notPush pusher i page⟩

theorem CurrentLinks.step {cfg : Config Thread}
    {past : History (MemoryPool Thread) (Action Thread)} {before after : MemoryPool Thread}
    {action : Action Thread} {free free' : ℕ → List Addr} (tracks : Tracks before free)
    (current : CurrentLinks cfg past before free)
    (stepped : MemoryPool.step cfg before action = some after)
    (change : Change cfg before action after free free') :
    CurrentLinks cfg ((before, action) :: past) after free' := by
  intro thread i page next at_pc pushFree mem
  have threadStep := step_thread stepped thread
  rw [at_pc] at threadStep
  -- Either the thread waits at its compare-and-swap, or it has just read the word.
  have current_before :
      (∀ j, before.pc thread ≠ .loadHead j) ∧
        (PushFreeSince cfg thread i past → page ∈ free i → next = before.next page) := by
    generalize reached : Pc.popCas i page next = pc at threadStep
    cases threadStep with
    | unmoved => exact ⟨by simp [← reached], current reached.symm⟩
    | callsAllocate acts isIdle => contradiction
    | callsDeallocate page acts isIdle notNull holds => contradiction
    | advances pc acts follows =>
        subst pc
        rcases follows.to_popCas with ⟨at_load, read⟩
        exact ⟨by simp [at_load], fun _ _ => read⟩
    | retries pc acts retries =>
        subst pc
        generalize before.pc thread = old at retries
        cases retries
  rcases pushFreeSince_tail current_before.1 pushFree with ⟨pushFreeBefore, notPushed⟩
  have memBefore := change.mem_before notPushed mem
  rw [tracks.step_next stepped memBefore]
  exact current_before.2 pushFreeBefore memBefore

theorem popsFresh_of_windows {cfg : Config Thread}
    {past : History (MemoryPool Thread) (Action Thread)} {pool : MemoryPool Thread}
    {action : Action Thread} {free : ℕ → List Addr} (tracks : Tracks pool free)
    (current : CurrentLinks cfg past pool free)
    (windows : PushFreeWindows cfg ((pool, action) :: past)) :
    PopsFresh cfg pool action := by
  unfold PopsFresh
  split
  · next thread i page next happens =>
      have pushFree : PushFreeSince cfg thread i past := by
        simpa [PushFreeWindows, happens] using windows.2
      rcases event_pops happens with ⟨at_pc, head_eq⟩
      have page_ne : page ≠ 0 := by
        simpa [at_pc, Pc.LoadedPage] using tracks.loaded thread
      have mem : page ∈ free i := by
        rw [← head_eq] at page_ne ⊢
        exact (tracks.linked i).head_mem page_ne
      exact current at_pc pushFree mem
  · trivial

theorem conserved_of_pushFreeWindows {cfg : Config Thread} {pages : List Addr}
    (aligned : AlignedPages cfg pages) {past : History (MemoryPool Thread) (Action Thread)}
    {pool : MemoryPool Thread} (run : Run (step cfg) (construct cfg pages) past pool)
    (windows : PushFreeWindows cfg past) :
    Guarded (PopsFresh cfg) past ∧
      ∃ free, Conserved cfg pages pool free ∧ CurrentLinks cfg past pool free := by
  induction run with
  | start =>
      have built := construct_built aligned
      refine ⟨by simp [Guarded], _, built.conserved aligned.nodup, ?_⟩
      intro thread i page next at_pc
      simp [built.idle] at at_pc
  | @step past before after action run stepped ih =>
      rcases ih windows.1 with ⟨guarded, free, conserved, current⟩
      have fresh := popsFresh_of_windows conserved.tracks current windows
      rcases conserved.step fresh stepped with ⟨free', change, conservedAfter⟩
      refine ⟨?_, free', conservedAfter, current.step conserved.tracks stepped change⟩
      intro moment mem
      rcases List.mem_cons.mp mem with rfl | memPast
      · exact fresh
      · exact guarded moment memPast

/-- The free lists are finite and without repetitions, every page is on the list
of its address, and the lists and the owners are a partition of the pages. -/
structure PartitionsPages (cfg : Config Thread) (pages : List Addr)
    (pool : MemoryPool Thread) (free : ℕ → List Addr) : Prop where
  linked : ∀ i, Linked pool.next 0 (pool.localPools i) (free i)
  nodup : ∀ i, (free i).Nodup
  disjoint : ∀ {i j : ℕ}, i ≠ j → List.Disjoint (free i) (free j)
  home : ∀ {i : ℕ} {page : Addr}, page ∈ free i →
    page / cfg.pageSize % cfg.numPools = i
  ownedOnce : ∀ thread, (pool.owned thread).Nodup
  oneOwner : ∀ {thread other : Thread}, thread ≠ other →
    List.Disjoint (pool.owned thread) (pool.owned other)
  notFree : ∀ (thread : Thread) (i : ℕ), List.Disjoint (pool.owned thread) (free i)
  mem_iff : ∀ page, page ∈ pages ↔
    (∃ i < cfg.numPools, page ∈ free i) ∨ ∃ thread, page ∈ pool.owned thread

omit [DecidableEq Thread] in
theorem Conserved.partitionsPages {cfg : Config Thread} {pages : List Addr}
    {pool : MemoryPool Thread} {free : ℕ → List Addr}
    (conserved : Conserved cfg pages pool free) : PartitionsPages cfg pages pool free where
  linked := conserved.tracks.linked
  nodup i := conserved.tracks.exclusive.nodup (.free i)
  disjoint := by
    intro i j distinct
    exact conserved.tracks.exclusive.disjoint
      (show Place.free i ≠ .free j by simpa using distinct)
  home := conserved.home
  ownedOnce thread := conserved.tracks.exclusive.nodup (.owned thread)
  oneOwner := by
    intro thread other distinct
    exact conserved.tracks.exclusive.disjoint
      (show Place.owned thread ≠ .owned other by simpa using distinct)
  notFree thread i := conserved.tracks.exclusive.disjoint
    (show Place.owned thread ≠ .free i by simp)
  mem_iff := by
    intro page
    rw [← conserved.records_iff page]
    constructor
    · rintro ⟨i | thread, mem⟩
      · have bound : i < cfg.numPools := by
          rw [← conserved.home mem]
          exact Nat.mod_lt _ cfg.numPools_pos
        exact Or.inl ⟨i, bound, mem⟩
      · exact Or.inr ⟨thread, mem⟩
    · rintro (⟨i, _, mem⟩ | ⟨thread, mem⟩)
      · exact ⟨.free i, mem⟩
      · exact ⟨.owned thread, mem⟩

/-- In every run with push-free windows the lists and the owners partition the
pages; once all pages are returned, each list is a permutation of its list after
construction. -/
theorem partitionsPages_of_pushFreeWindows {cfg : Config Thread} {pages : List Addr}
    (aligned : AlignedPages cfg pages) {past : History (MemoryPool Thread) (Action Thread)}
    {pool : MemoryPool Thread} (run : Run (step cfg) (construct cfg pages) past pool)
    (windows : PushFreeWindows cfg past) :
    ∃ free, PartitionsPages cfg pages pool free ∧
      ((∀ thread, pool.owned thread = []) → ∀ {i : ℕ} {initial : List Addr},
        Linked (construct cfg pages).next 0 ((construct cfg pages).localPools i) initial →
          (free i).Perm initial) := by
  rcases conserved_of_pushFreeWindows aligned run windows with ⟨_, free, conserved, _⟩
  refine ⟨free, conserved.partitionsPages, ?_⟩
  intro returned i initial linkedInitial
  have same := ((construct_built aligned).linked i).unique linkedInitial
  rw [← same]
  exact conserved.perm_initialFree aligned.nodup returned i

/-- Two threads race for the same page, take one page each and return both; the
page of thread `1` is overwritten while it is held. -/
theorem partitionsPages_after_race :
    ∃ past pool, Run (step onePool) (construct onePool [4096, 8192]) past pool ∧
      past.length = 32 ∧ (∃ free, PartitionsPages onePool [4096, 8192] pool free ∧
        (free 0).Perm [8192, 4096]) := by
  have ran := Run.exists_of_perform (step onePool)
    (construct onePool [4096, 8192])
    [.callAllocate 0, .callAllocate 1, .tick 0, .tick 1, .tick 0, .tick 1,
      .tick 1, .tick 1, .tick 1, .overwrite 1 8192 42, .tick 0, .tick 0, .tick 0,
      .spuriousFailure 0, .tick 0, .tick 0, .tick 0, .tick 0, .tick 0,
      .callDeallocate 0 4096, .tick 0, .callDeallocate 1 8192, .tick 0, .tick 1, .tick 1,
      .tick 1, .tick 0, .tick 1, .tick 0, .tick 0, .tick 0, .tick 0]
    (fun past pool => past.length = 32 && decide (PushFreeWindows onePool past) &&
      decide (∀ thread, pool.owned thread = []))
    (by decide +kernel)
  rcases ran with ⟨past, pool, run, checked⟩
  simp only [Bool.and_eq_true, decide_eq_true_eq] at checked
  rcases checked with ⟨⟨length_eq, windows⟩, returned⟩
  refine ⟨past, pool, run, length_eq, ?_⟩
  rcases partitionsPages_of_pushFreeWindows onePool_aligned run windows with
    ⟨free, partitions, permutes⟩
  exact ⟨free, partitions, permutes returned ((construct_built onePool_aligned).linked 0)⟩

end UserLevelMmap.MemoryPool
