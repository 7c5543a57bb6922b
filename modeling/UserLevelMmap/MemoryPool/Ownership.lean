import UserLevelMmap.Library.Linked
import UserLevelMmap.Library.Ledger
import UserLevelMmap.MemoryPool.Effect

/-!
# Exclusive ownership of pages

The abstract view of a pool is a ledger: every page is on one free list, or
owned by one thread, or lost. `Tracks` relates the memory of a pool to such a
ledger, and `Tracks.step` shows that the relation survives every step whose
successful pop installs null or a page that is still behind the popped one.

The pop of `allocate` reads `page->next` before it swaps the head and compares
the head pointer only. Between the two accesses the page may leave the list, be
overwritten by its holder and come back, so the installed pointer can be stale:
the invariant cannot do without the guard on the popping step.
-/

namespace UserLevelMmap.MemoryPool

variable {Thread : Type}

/-- Where a page can be. -/
inductive Place (Thread : Type) where
  | free (pool : ℕ)
  | owned (thread : Thread)
  deriving DecidableEq

/-- The pages on the free lists and the pages of the threads. -/
def ledger (pool : MemoryPool Thread) (free : ℕ → List Addr) : Ledger (Place Thread) Addr
  | .free i => free i
  | .owned thread => pool.owned thread

/-- The page that `allocate` works on after its head load is not null. -/
def Pc.LoadedPage : Pc → Prop
  | .loadNext _ page => page ≠ 0
  | .popCas _ page _ => page ≠ 0
  | _ => True

/-- The memory of the pool represents the given free lists. -/
structure Tracks (pool : MemoryPool Thread) (free : ℕ → List Addr) : Prop where
  linked : ∀ i, Linked pool.next 0 (pool.localPools i) (free i)
  exclusive : (pool.ledger free).Exclusive
  owned_nonnull : ∀ thread, 0 ∉ pool.owned thread
  stored : ∀ {thread : Thread} {page expected : Addr},
    pool.pc thread = .pushCas page expected → pool.next page = expected
  loaded : ∀ thread, (pool.pc thread).LoadedPage

/-- A successful pop installs null or a page that is still behind the popped one. -/
def PopsBehind (cfg : Config Thread) (pool : MemoryPool Thread) (action : Action Thread) :
    Prop :=
  match event cfg pool action with
  | some (.pops _ _ page next) =>
      next = 0 ∨ ∃ count, visit pool.next 0 count (pool.next page) = next
  | _ => True

/-- A successful pop installs what `page->next` still holds. -/
def PopsFresh (cfg : Config Thread) (pool : MemoryPool Thread) (action : Action Thread) :
    Prop :=
  match event cfg pool action with
  | some (.pops _ _ page next) => next = pool.next page
  | _ => True

instance (cfg : Config Thread) (pool : MemoryPool Thread) (action : Action Thread) :
    Decidable (PopsFresh cfg pool action) :=
  match found : event cfg pool action with
  | some (.pops _ _ page next) =>
      decidable_of_iff (next = pool.next page) (by simp [PopsFresh, found])
  | some (.pushes ..) => isTrue (by simp [PopsFresh, found])
  | some (.loadsHead ..) => isTrue (by simp [PopsFresh, found])
  | none => isTrue (by simp [PopsFresh, found])

theorem PopsFresh.behind {cfg : Config Thread} {pool : MemoryPool Thread}
    {action : Action Thread} (fresh : PopsFresh cfg pool action) :
    PopsBehind cfg pool action := by
  unfold PopsFresh at fresh
  unfold PopsBehind
  split at fresh
  · exact Or.inr ⟨0, fresh.symm⟩
  · trivial

/-- What a step does to the free lists and to the owners. -/
inductive Change (cfg : Config Thread) (before : MemoryPool Thread) (action : Action Thread)
    (after : MemoryPool Thread) (free free' : ℕ → List Addr) : Prop where
  | stay (noCas : NoListEvent cfg before action) (lists : free' = free)
      (owners : ∀ thread, (after.owned thread).Perm (before.owned thread))
  /-- A thread takes the head of a list; the pages between it and the installed one are lost. -/
  | taken (thread : Thread) (i : ℕ) (page : Addr) (lost : List Addr)
      (happens : ∃ next, event cfg before action = some (.pops thread i page next))
      (listed : free i = page :: (lost ++ free' i)) (lists : ∀ j, j ≠ i → free' j = free j)
      (kept : PopsFresh cfg before action → lost = [])
      (owner : (after.owned thread).Perm (page :: before.owned thread))
      (owners : ∀ other, other ≠ thread → (after.owned other).Perm (before.owned other))
  | given (thread : Thread) (page : Addr)
      (happens : event cfg before action = some (.pushes thread (cfg.poolIdx page) page))
      (listed : free' (cfg.poolIdx page) = page :: free (cfg.poolIdx page))
      (lists : ∀ j, j ≠ cfg.poolIdx page → free' j = free j)
      (owner : (before.owned thread).Perm (page :: after.owned thread))
      (owners : ∀ other, other ≠ thread → (after.owned other).Perm (before.owned other))

namespace Change

variable {cfg : Config Thread} {before after : MemoryPool Thread} {action : Action Thread}
  {free free' : ℕ → List Addr}

/-- Taking the head of a list is a move of the ledger that still lists the lost pages. -/
theorem moves_of_taken {thread : Thread} {i : ℕ} {page : Addr} {rest : List Addr}
    (listed : free i = page :: rest)
    (owner : (after.owned thread).Perm (page :: before.owned thread))
    (owners : ∀ other, other ≠ thread → (after.owned other).Perm (before.owned other)) :
    Ledger.Moves (before.ledger free) (after.ledger (Function.update free i rest))
      (.free i) (.owned thread) page where
  distinct := by simp
  leaves := by simp [ledger, listed]
  enters := owner
  stay := by
    intro place notSource notTarget
    cases place with
    | free j =>
        have j_ne : j ≠ i := fun same => notSource (by rw [same])
        simp [ledger, j_ne]
    | owned other => exact owners other (fun same => notTarget (by rw [same]))

theorem moves_of_given {thread : Thread} {page : Addr}
    (listed : free' (cfg.poolIdx page) = page :: free (cfg.poolIdx page))
    (lists : ∀ j, j ≠ cfg.poolIdx page → free' j = free j)
    (owner : (before.owned thread).Perm (page :: after.owned thread))
    (owners : ∀ other, other ≠ thread → (after.owned other).Perm (before.owned other)) :
    Ledger.Moves (before.ledger free) (after.ledger free') (.owned thread)
      (.free (cfg.poolIdx page)) page where
  distinct := by simp
  leaves := owner
  enters := by simp [ledger, listed]
  stay := by
    intro place notSource notTarget
    cases place with
    | free j =>
        have j_ne : j ≠ cfg.poolIdx page := fun same => notTarget (by rw [same])
        simp [ledger, lists j j_ne]
    | owned other => exact owners other (fun same => notSource (by rw [same]))

/-- The ledger with the lost pages still listed contains the ledger without them. -/
theorem subperm_of_taken {i : ℕ} {lost : List Addr}
    (lists : ∀ j, j ≠ i → free' j = free j) (place : Place Thread) :
    (after.ledger free' place).Subperm
      (after.ledger (Function.update free i (lost ++ free' i)) place) := by
  cases place with
  | free j =>
      by_cases same : j = i
      · subst j
        simpa [ledger] using (List.sublist_append_right lost (free' i)).subperm
      · simp [ledger, same, lists j same, List.Subperm.refl]
  | owned thread => exact List.Subperm.refl _

theorem reorder_of_stay (lists : free' = free)
    (owners : ∀ thread, (after.owned thread).Perm (before.owned thread))
    (place : Place Thread) :
    (after.ledger free' place).Perm (before.ledger free place) := by
  subst free'
  cases place with
  | free i => exact .refl _
  | owned thread => exact owners thread

theorem exclusive (change : Change cfg before action after free free')
    (exclusive : (before.ledger free).Exclusive) : (after.ledger free').Exclusive := by
  cases change with
  | stay _ lists owners => exact exclusive.reorder (reorder_of_stay lists owners)
  | taken thread i page lost _ listed lists _ owner owners =>
      exact ((moves_of_taken listed owner owners).exclusive exclusive).shrink
        (subperm_of_taken lists)
  | given thread page _ listed lists owner owners =>
      exact (moves_of_given listed lists owner owners).exclusive exclusive

theorem records (change : Change cfg before action after free free')
    (exclusive : (before.ledger free).Exclusive) {page : Addr}
    (recorded : (after.ledger free').Records page) : (before.ledger free).Records page := by
  cases change with
  | stay _ lists owners =>
      exact (Ledger.records_reorder (reorder_of_stay lists owners) page).mp recorded
  | taken thread i taken lost _ listed lists _ owner owners =>
      rw [← (moves_of_taken listed owner owners).records_iff exclusive]
      rcases recorded with ⟨place, mem⟩
      exact ⟨place, (subperm_of_taken lists place).subset mem⟩
  | given thread given _ listed lists owner owners =>
      exact ((moves_of_given listed lists owner owners).records_iff exclusive page).mp recorded

theorem owned_nonnull (change : Change cfg before action after free free')
    (linked : ∀ i, Linked before.next 0 (before.localPools i) (free i))
    (nonnull : ∀ thread, 0 ∉ before.owned thread) (thread : Thread) :
    0 ∉ after.owned thread := by
  cases change with
  | stay _ lists owners => simpa [(owners thread).mem_iff] using nonnull thread
  | taken taker i page lost _ listed lists _ owner owners =>
      by_cases same : thread = taker
      · subst thread
        have page_ne : (0 : Addr) ≠ page := by
          have notListed := (linked i).null_notMem
          rw [listed, List.mem_cons, not_or] at notListed
          exact notListed.1
        rw [owner.mem_iff, List.mem_cons, not_or]
        exact ⟨page_ne, nonnull taker⟩
      · rw [(owners thread same).mem_iff]
        exact nonnull thread
  | given giver page _ listed lists owner owners =>
      by_cases same : thread = giver
      · subst thread
        intro mem
        exact nonnull giver (owner.mem_iff.mpr (List.mem_cons_of_mem _ mem))
      · rw [(owners thread same).mem_iff]
        exact nonnull thread

theorem records_of_fresh (change : Change cfg before action after free free')
    (exclusive : (before.ledger free).Exclusive) (fresh : PopsFresh cfg before action)
    {page : Addr} (recorded : (before.ledger free).Records page) :
    (after.ledger free').Records page := by
  cases change with
  | stay _ lists owners =>
      exact (Ledger.records_reorder (reorder_of_stay lists owners) page).mpr recorded
  | taken thread i taken lost _ listed lists kept owner owners =>
      have moved := ((moves_of_taken listed owner owners).records_iff exclusive page).mpr recorded
      have same : Function.update free i (lost ++ free' i) = free' := by
        funext j
        by_cases isPool : j = i
        · subst j
          simp [kept fresh]
        · simp [isPool, lists j isPool]
      rwa [same] at moved
  | given thread given _ listed lists owner owners =>
      exact ((moves_of_given listed lists owner owners).records_iff exclusive page).mpr recorded

end Change

theorem loadedPage_richestLoop (cfg : Config Thread) (pool richest : ℕ) (maxRemain : Counter)
    (hasPage : Bool) : (cfg.richestLoop pool richest maxRemain hasPage).LoadedPage := by
  rcases richestLoop_cases cfg pool richest maxRemain hasPage with
    ⟨_, eq⟩ | eq | ⟨_, _, eq⟩ | eq <;> simp [eq, Pc.LoadedPage]

namespace Tracks

variable {cfg : Config Thread} {before : MemoryPool Thread} {action : Action Thread}
  {free : ℕ → List Addr}

theorem notMem_free (tracks : Tracks before free) {thread : Thread} {page : Addr}
    (mem : page ∈ before.owned thread) (i : ℕ) : page ∉ free i :=
  tracks.exclusive.disjoint (show Place.owned thread ≠ .free i by simp) mem

theorem owner_unique (tracks : Tracks before free) {thread other : Thread} {page : Addr}
    (mem : page ∈ before.owned thread) (memOther : page ∈ before.owned other) :
    thread = other := by
  have same := tracks.exclusive.eq_of_mem (.owned thread) (.owned other) mem memOther
  simpa using same

theorem ne_of_pushCas (tracks : Tracks before free) {thread other : Thread}
    {page pushed expected : Addr} (mem : page ∈ before.owned thread)
    (notSame : other ≠ thread ∨ page ∈ before.held thread)
    (at_pc : before.pc other = .pushCas pushed expected) : pushed ≠ page := by
  rintro rfl
  have memOther : pushed ∈ before.owned other := by simp [owned, at_pc]
  have same := tracks.owner_unique mem memOther
  rcases notSame with notSame | holds
  · exact notSame same.symm
  · subst other
    have nodup : (before.owned thread).Nodup := tracks.exclusive.nodup (.owned thread)
    rw [owned, at_pc] at nodup
    exact (List.nodup_cons.mp nodup).1 holds

/-- The list behind the head after a pop, with the pages that the pop loses. -/
theorem rest_of_pop {pool : MemoryPool Thread} {thread : Thread} {i : ℕ} {page next : Addr}
    {rest : List Addr} (linkedRest : Linked pool.next 0 (pool.next page) rest)
    (behind : PopsBehind cfg pool action)
    (happens : event cfg pool action = some (.pops thread i page next)) :
    ∃ lost kept, rest = lost ++ kept ∧ Linked pool.next 0 next kept := by
  simp only [PopsBehind, happens] at behind
  by_cases isNull : next = 0
  · exact ⟨rest, [], by simp, isNull⟩
  · rcases behind with null | ⟨count, visited⟩
    · exact absurd null isNull
    · have mem : next ∈ rest := by
        rw [← visited] at isNull ⊢
        exact linkedRest.visit_mem isNull
      rcases linkedRest.suffix mem with ⟨lost, tail, split, linkedTail⟩
      exact ⟨lost, next :: tail, split, linkedTail⟩

end Tracks

variable [DecidableEq Thread]

theorem step_loaded {cfg : Config Thread} {before after : MemoryPool Thread}
    {action : Action Thread} (loaded : ∀ thread, (before.pc thread).LoadedPage)
    (stepped : step cfg before action = some after) (thread : Thread) :
    (after.pc thread).LoadedPage := by
  have loadedBefore := loaded thread
  have threadStep := step_thread stepped thread
  generalize after.pc thread = pc at threadStep ⊢
  cases threadStep with
  | unmoved => exact loadedBefore
  | callsAllocate acts isIdle => simp [Pc.LoadedPage]
  | callsDeallocate page acts isIdle notNull holds => simp [Pc.LoadedPage]
  | advances pc acts follows =>
      generalize before.pc thread = old at follows loadedBefore
      cases follows with
      | headLoaded i notNull => exact notNull
      | nextLoaded i page => exact loadedBefore
      | nothingTaken i => exact loadedPage_richestLoop cfg 0 0 0 false
      | notRicher i richest maxRemain hasPage notMore =>
          exact loadedPage_richestLoop cfg (i + 1) richest maxRemain hasPage
      | maxRead i => exact loadedPage_richestLoop cfg (i + 1) i _ true
      | _ => simp [Pc.LoadedPage]
  | retries pc acts retries =>
      generalize before.pc thread = old at retries
      cases retries <;> simp [Pc.LoadedPage]

namespace Tracks

variable {cfg : Config Thread} {before after : MemoryPool Thread} {action : Action Thread}
  {free : ℕ → List Addr}

theorem step_popped (tracks : Tracks before free) (behind : PopsBehind cfg before action)
    {thread : Thread} {i : ℕ} {page next : Addr}
    (at_pc : before.pc thread = .popCas i page next)
    (head_eq : before.localPools i = page)
    (happens : event cfg before action = some (.pops thread i page next))
    (result : after = { before with
      localPools := Function.update before.localPools i next
      pc := Function.update before.pc thread (.decrement i page) }) :
    ∃ free', Change cfg before action after free free' ∧
      ∀ j, Linked after.next 0 (after.localPools j) (free' j) := by
  have page_ne : page ≠ 0 := by
    simpa [at_pc, Pc.LoadedPage] using tracks.loaded thread
  have linkedHead := tracks.linked i
  rw [head_eq] at linkedHead
  obtain ⟨rest, listed, linkedRest⟩ :
      ∃ rest, free i = page :: rest ∧ Linked before.next 0 (before.next page) rest := by
    cases listed : free i with
    | nil =>
        rw [listed] at linkedHead
        exact absurd linkedHead page_ne
    | cons first rest =>
        rw [listed] at linkedHead
        rcases linkedHead with ⟨rfl, _, linkedRest⟩
        exact ⟨rest, rfl, linkedRest⟩
  rcases rest_of_pop linkedRest behind happens with ⟨lost, kept, split, linkedKept⟩
  refine ⟨Function.update free i kept, ?_, ?_⟩
  · apply Change.taken thread i page lost ⟨next, happens⟩
    · simp [listed, split]
    · intro j j_ne
      simp [j_ne]
    · intro fresh
      simp only [PopsFresh, happens] at fresh
      rw [fresh] at linkedKept
      have whole := linkedRest.unique linkedKept
      rw [whole] at split
      simpa using split
    · simp [result, owned, at_pc, page_ne]
    · intro other other_ne
      simp [result, owned, other_ne]
  · intro j
    by_cases isPool : j = i
    · subst j
      simpa [result] using linkedKept
    · simpa [result, isPool] using tracks.linked j

theorem step_pushed (tracks : Tracks before free) {thread : Thread} {page expected : Addr}
    (at_pc : before.pc thread = .pushCas page expected)
    (head_eq : before.localPools (cfg.poolIdx page) = expected)
    (happens : event cfg before action = some (.pushes thread (cfg.poolIdx page) page))
    (result : after = { before with
      localPools := Function.update before.localPools (cfg.poolIdx page) page
      pc := Function.update before.pc thread (.increment page) }) :
    ∃ free', Change cfg before action after free free' ∧
      ∀ j, Linked after.next 0 (after.localPools j) (free' j) := by
  have mem : page ∈ before.owned thread := by simp [owned, at_pc]
  have page_ne : page ≠ 0 := by
    rintro rfl
    exact tracks.owned_nonnull thread mem
  refine ⟨Function.update free (cfg.poolIdx page) (page :: free (cfg.poolIdx page)), ?_, ?_⟩
  · apply Change.given thread page happens
    · simp
    · intro j j_ne
      simp [j_ne]
    · simp [result, owned, at_pc]
    · intro other other_ne
      simp [result, owned, other_ne]
  · intro j
    by_cases isPool : j = cfg.poolIdx page
    · subst j
      have linked := tracks.linked (cfg.poolIdx page)
      rw [head_eq] at linked
      simpa [result] using linked.push page_ne (tracks.stored at_pc)
    · simpa [result, isPool] using tracks.linked j

theorem step_change (tracks : Tracks before free) (behind : PopsBehind cfg before action)
    (stepped : step cfg before action = some after) :
    ∃ free', Change cfg before action after free free' ∧
      ∀ j, Linked after.next 0 (after.localPools j) (free' j) := by
  cases step_effect stepped with
  | quiet heads links owners casOld noCas =>
      refine ⟨free, .stay noCas rfl owners, ?_⟩
      rw [heads, links]
      exact tracks.linked
  | overwritten thread page word holds noCas result =>
      have mem : page ∈ before.owned thread := List.mem_append_right _ holds
      refine ⟨free, .stay noCas rfl ?_, ?_⟩
      · intro other
        simp [result, owned]
      · intro j
        simpa [result] using (tracks.linked j).write (tracks.notMem_free mem j)
  | prepared thread page expected at_pc noCas result =>
      have mem : page ∈ before.owned thread := by simp [owned, at_pc]
      refine ⟨free, .stay noCas rfl ?_, ?_⟩
      · intro other
        by_cases isThread : other = thread
        · subst other
          simp [result, owned, at_pc]
        · simp [result, owned, isThread]
      · intro j
        simpa [result] using (tracks.linked j).write (tracks.notMem_free mem j)
  | popped thread i page next at_pc head_eq happens result =>
      exact tracks.step_popped behind at_pc head_eq happens result
  | pushed thread page expected at_pc head_eq happens result =>
      exact tracks.step_pushed at_pc head_eq happens result

/-- No step writes to the `next` word of a page on a list. -/
theorem step_next (tracks : Tracks before free)
    (stepped : step cfg before action = some after) {i : ℕ} {page : Addr}
    (mem : page ∈ free i) : after.next page = before.next page := by
  cases step_effect stepped with
  | quiet heads links owners casOld noCas => rw [links]
  | overwritten thread written word holds noCas result =>
      have page_ne : page ≠ written := by
        rintro rfl
        exact tracks.notMem_free (List.mem_append_right _ holds) i mem
      simp [result, page_ne]
  | prepared thread written expected at_pc noCas result =>
      have isOwned : written ∈ before.owned thread := by simp [owned, at_pc]
      have page_ne : page ≠ written := by
        rintro rfl
        exact tracks.notMem_free isOwned i mem
      simp [result, page_ne]
  | popped thread j taken next at_pc head_eq happens result => simp [result]
  | pushed thread given expected at_pc head_eq happens result => simp [result]

theorem step_stored (tracks : Tracks before free)
    (stepped : step cfg before action = some after) {other : Thread} {pushed found : Addr}
    (at_cas : after.pc other = .pushCas pushed found) : after.next pushed = found := by
  cases step_effect stepped with
  | quiet heads links owners casOld noCas =>
      rw [links]
      exact tracks.stored (casOld other pushed found at_cas)
  | overwritten thread page word holds noCas result =>
      subst result
      have pushed_ne := tracks.ne_of_pushCas (List.mem_append_right _ holds) (Or.inr holds) at_cas
      simpa [pushed_ne] using tracks.stored at_cas
  | prepared thread page expected at_pc noCas result =>
      subst result
      by_cases isThread : other = thread
      · subst other
        simp only [Function.update_self, Pc.pushCas.injEq] at at_cas
        rcases at_cas with ⟨rfl, rfl⟩
        simp
      · simp only [Function.update_of_ne isThread] at at_cas
        have mem : page ∈ before.owned thread := by simp [owned, at_pc]
        have pushed_ne := tracks.ne_of_pushCas mem (Or.inl isThread) at_cas
        simpa [pushed_ne] using tracks.stored at_cas
  | popped thread i page next at_pc head_eq happens result =>
      subst result
      by_cases isThread : other = thread
      · simp [isThread] at at_cas
      · simp only [Function.update_of_ne isThread] at at_cas
        exact tracks.stored at_cas
  | pushed thread page expected at_pc head_eq happens result =>
      subst result
      by_cases isThread : other = thread
      · simp [isThread] at at_cas
      · simp only [Function.update_of_ne isThread] at at_cas
        exact tracks.stored at_cas

theorem step (tracks : Tracks before free) (behind : PopsBehind cfg before action)
    (stepped : MemoryPool.step cfg before action = some after) :
    ∃ free', Change cfg before action after free free' ∧ Tracks after free' := by
  rcases tracks.step_change behind stepped with ⟨free', change, linked⟩
  refine ⟨free', change, ?_⟩
  exact
    { linked := linked
      exclusive := change.exclusive tracks.exclusive
      owned_nonnull := change.owned_nonnull tracks.linked tracks.owned_nonnull
      stored := tracks.step_stored stepped
      loaded := step_loaded tracks.loaded stepped }

end Tracks

end UserLevelMmap.MemoryPool
