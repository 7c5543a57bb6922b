import Mathlib.Data.List.Basic
import UserLevelMmap.MemoryPool.Construct

/-!
# Exclusive ownership along runs

A page belongs to one caller or to one place of one free list in every state of
a run all of whose pops install null or a page behind the popped one. Without
this condition the property fails: `pop_installs_held_page` is a run in which a
page leaves and re-enters its list between the load of its `next` word and the
compare-and-swap, so that the head is set to a page another thread holds.
-/

namespace UserLevelMmap.MemoryPool

variable {Thread : Type}

/-- No page has two owners, is owned and on a list, or is twice on the lists, and
the heads are pages of the pool. The pages of a list are the visits of its head. -/
structure ExclusiveOwnership (cfg : Config Thread) (pages : List Addr)
    (pool : MemoryPool Thread) : Prop where
  ownedOnce : ∀ thread, (pool.owned thread).Nodup
  oneOwner : ∀ {thread other : Thread}, thread ≠ other →
    List.Disjoint (pool.owned thread) (pool.owned other)
  notFree : ∀ {thread : Thread} {i count : ℕ}, i < cfg.numPools →
    visit pool.next 0 count (pool.localPools i) ≠ 0 →
      visit pool.next 0 count (pool.localPools i) ∉ pool.owned thread
  freeOnce : ∀ {i j first second : ℕ}, i < cfg.numPools → j < cfg.numPools →
    visit pool.next 0 first (pool.localPools i) ≠ 0 →
    visit pool.next 0 first (pool.localPools i) =
        visit pool.next 0 second (pool.localPools j) →
      i = j ∧ first = second
  headIsPage : ∀ {i : ℕ}, i < cfg.numPools → pool.localPools i ≠ 0 →
    pool.localPools i ∈ pages

theorem Tracks.exclusiveOwnership {cfg : Config Thread} {pages : List Addr}
    {pool : MemoryPool Thread} {free : ℕ → List Addr} (tracks : Tracks pool free)
    (known : ∀ page, (pool.ledger free).Records page → page ∈ pages) :
    ExclusiveOwnership cfg pages pool where
  ownedOnce thread := tracks.exclusive.nodup (.owned thread)
  oneOwner := by
    intro thread other distinct
    exact tracks.exclusive.disjoint
      (show Place.owned thread ≠ .owned other by simpa using distinct)
  notFree := by
    intro thread i count _ visited mem
    exact tracks.notMem_free mem i ((tracks.linked i).visit_mem visited)
  freeOnce := by
    intro i j first second _ _ visited same
    have memFirst := (tracks.linked i).visit_mem visited
    have visitedSecond : visit pool.next 0 second (pool.localPools j) ≠ 0 := same ▸ visited
    have memSecond := (tracks.linked j).visit_mem visitedSecond
    rw [← same] at memSecond
    have samePlace := tracks.exclusive.eq_of_mem (.free i) (.free j) memFirst memSecond
    simp only [Place.free.injEq] at samePlace
    subst j
    exact ⟨rfl, (tracks.linked i).visit_injective (tracks.exclusive.nodup (.free i))
      visited same⟩
  headIsPage := by
    intro i _ head_ne
    exact known _ ⟨.free i, (tracks.linked i).head_mem head_ne⟩

variable [DecidableEq Thread]

theorem tracks_of_popsBehind {cfg : Config Thread} {pages : List Addr}
    (aligned : AlignedPages cfg pages) {past : History (MemoryPool Thread) (Action Thread)}
    {pool : MemoryPool Thread} (run : Run (step cfg) (construct cfg pages) past pool)
    (guarded : Guarded (PopsBehind cfg) past) :
    ∃ free, Tracks pool free ∧ ∀ page, (pool.ledger free).Records page → page ∈ pages := by
  have built := construct_built aligned
  refine run.invariant (PopsBehind cfg)
    (fun pool => ∃ free, Tracks pool free ∧
      ∀ page, (pool.ledger free).Records page → page ∈ pages)
    ⟨_, built.tracks aligned.nodup, fun page => (built.records_iff page).mp⟩ ?_ guarded
  rintro before after action ⟨free, tracks, known⟩ behind stepped
  rcases tracks.step behind stepped with ⟨free', change, tracksAfter⟩
  exact ⟨free', tracksAfter, fun page recorded =>
    known page (change.records tracks.exclusive recorded)⟩

/-- In every run whose successful pops install null or a page that is still
behind the popped one, ownership of pages is exclusive in the state reached. -/
theorem exclusiveOwnership_of_popsBehind {cfg : Config Thread} {pages : List Addr}
    (aligned : AlignedPages cfg pages) {past : History (MemoryPool Thread) (Action Thread)}
    {pool : MemoryPool Thread} (run : Run (step cfg) (construct cfg pages) past pool)
    (guarded : Guarded (PopsBehind cfg) past) : ExclusiveOwnership cfg pages pool := by
  rcases tracks_of_popsBehind aligned run guarded with ⟨free, tracks, known⟩
  exact tracks.exclusiveOwnership known

theorem page_fits_4096 : 24 ≤ 4096 := by
  decide

/-- One pool of pages of 4 KiB shared by two threads. -/
def onePool : Config (Fin 2) where
  numPools := 1
  pageSize := 4096
  hash := Fin.val
  numPools_pos := by decide
  page_fits := page_fits_4096

theorem onePool_aligned : AlignedPages onePool [4096, 8192] where
  nodup := by decide
  nonnull := by decide
  aligned := by decide
  inRange := by decide

/-- Thread `0` takes a page while thread `1` overwrites the page it holds. -/
theorem exclusiveOwnership_after_two_pops :
    ∃ past pool, Run (step onePool) (construct onePool [4096, 8192]) past pool ∧
      past.length = 12 ∧ ExclusiveOwnership onePool [4096, 8192] pool := by
  have ran := Run.exists_of_perform (step onePool)
    (construct onePool [4096, 8192])
    [.callAllocate 0, .callAllocate 1, .tick 0, .tick 1, .tick 0, .tick 1,
      .tick 1, .tick 1, .tick 1, .overwrite 1 8192 42, .tick 0, .tick 0]
    (fun past _ => past.length = 12 && past.all (fun moment =>
      decide (PopsFresh onePool moment.1 moment.2)))
    (by decide +kernel)
  rcases ran with ⟨past, pool, run, checked⟩
  simp only [Bool.and_eq_true, decide_eq_true_eq, List.all_eq_true] at checked
  refine ⟨past, pool, run, checked.1, ?_⟩
  exact exclusiveOwnership_of_popsBehind onePool_aligned run
    (fun moment mem => (checked.2 moment mem).behind)

/-- The run of the ABA problem: thread `0` has read page `8192` and its successor
`4096`; thread `1` takes both pages and returns the first one; the compare-and-swap
of thread `0` then succeeds and makes the page held by thread `1` the head. -/
theorem pop_installs_held_page :
    ¬∀ (past : History (MemoryPool (Fin 2)) (Action (Fin 2))) (pool : MemoryPool (Fin 2)),
      AlignedPages onePool [4096, 8192] →
        Run (step onePool) (construct onePool [4096, 8192]) past pool →
          ExclusiveOwnership onePool [4096, 8192] pool := by
  intro always
  have ran := Run.exists_of_perform (step onePool)
    (construct onePool [4096, 8192])
    [.callAllocate 0, .tick 0, .tick 0,
      .callAllocate 1, .tick 1, .tick 1, .tick 1, .tick 1, .tick 1,
      .callAllocate 1, .tick 1, .tick 1, .tick 1, .tick 1, .tick 1,
      .callDeallocate 1 8192, .tick 1, .tick 1, .tick 1, .tick 1,
      .tick 0]
    (fun _ pool => pool.localPools 0 = 4096 && decide (4096 ∈ pool.owned 1))
    (by decide +kernel)
  rcases ran with ⟨past, pool, run, checked⟩
  simp only [Bool.and_eq_true, decide_eq_true_eq] at checked
  rcases checked with ⟨head_eq, holds⟩
  have ownership := always past pool onePool_aligned run
  have notHeld : visit pool.next 0 0 (pool.localPools 0) ∉ pool.owned 1 :=
    ownership.notFree (by decide) (by simp [visit, head_eq])
  simp only [visit, head_eq] at notHeld
  exact notHeld holds

end UserLevelMmap.MemoryPool
