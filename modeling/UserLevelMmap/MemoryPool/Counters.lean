import Mathlib.Data.Finset.Card
import Mathlib.Order.Interval.Finset.Nat
import UserLevelMmap.MemoryPool.Window

/-!
# The counters of free pages

With one call at a time the counter of a pool is the length of its list, except
between a compare-and-swap and the update that belongs to it, as long as no
`allocate` starts on an empty list. The decrement of `allocate` is on the path
of an empty list as well, where it belongs to no compare-and-swap; the counter
`0` of an empty list then wraps around to `2 ^ 64 - 1`.
-/

namespace UserLevelMmap.MemoryPool

variable {Thread : Type}

/-! ## The destructor -/

/-- The loop of the destructor over one list, with the pages it frees. -/
def freeList (next : Addr → Addr) : ℕ → Addr → Counter → List Addr →
    Option (Counter × List Addr)
  | 0, _, _, _ => none
  | fuel + 1, page, freeCnt, freed =>
      if page = 0 then some (freeCnt, freed)
      else freeList next fuel (next page) (freeCnt + 1) (freed ++ [page])

/-- How the destructor ends. -/
inductive Destroyed where
  | assertionFailed
  | done (freed : List Addr)
  deriving DecidableEq, Repr

/-- The second loop of the destructor, over the lists of the given pools. -/
def freeLists (pool : MemoryPool Thread) (fuel : ℕ) : List ℕ → List Addr → Option Destroyed
  | [], freed => some (.done freed)
  | i :: rest, freed =>
      match freeList pool.next fuel (pool.localPools i) 0 freed with
      | none => none
      | some (freeCnt, freed) =>
          if freeCnt = pool.localRemainPages i then freeLists pool fuel rest freed
          else some .assertionFailed

/-- `~MemoryPool`, with a bound on the number of pages followed in one list. -/
def destructor (cfg : Config Thread) (pool : MemoryPool Thread) (fuel : ℕ) :
    Option Destroyed :=
  if ∀ i < cfg.numPools, pool.localRemainPages i = BitVec.ofNat 64 (pool.pagesPerPool i) then
    freeLists pool fuel (List.range cfg.numPools) []
  else
    some .assertionFailed

theorem freeList_linked {next : Addr → Addr} {page : Addr} {pages : List Addr}
    (linked : Linked next 0 page pages) {fuel : ℕ} (enough : pages.length < fuel)
    (freeCnt : Counter) (freed : List Addr) :
    freeList next fuel page freeCnt freed =
      some (freeCnt + BitVec.ofNat 64 pages.length, freed ++ pages) := by
  induction pages generalizing page fuel freeCnt freed with
  | nil =>
      rw [Linked.nil_iff] at linked
      obtain ⟨fuel, rfl⟩ := Nat.exists_eq_add_of_lt enough
      simp [freeList, linked]
  | cons first rest ih =>
      rcases linked with ⟨rfl, page_ne, linkedRest⟩
      cases fuel with
      | zero => simp at enough
      | succ fuel =>
          have enoughRest : rest.length < fuel := by simpa using enough
          simp only [freeList, if_neg page_ne, ih linkedRest enoughRest, List.length_cons,
            List.append_assoc, List.singleton_append, Option.some.injEq, Prod.mk.injEq,
            and_true, BitVec.ofNat_add]
          rw [BitVec.add_assoc]
          congr 1
          exact BitVec.add_comm _ _

theorem freeLists_of_counts {pool : MemoryPool Thread} {free : ℕ → List Addr} {fuel : ℕ}
    (linked : ∀ i, Linked pool.next 0 (pool.localPools i) (free i)) (pools : List ℕ)
    (counts : ∀ i ∈ pools, pool.localRemainPages i = BitVec.ofNat 64 (free i).length)
    (enough : ∀ i ∈ pools, (free i).length < fuel) (freed : List Addr) :
    freeLists pool fuel pools freed = some (.done (freed ++ pools.flatMap free)) := by
  induction pools generalizing freed with
  | nil => simp [freeLists]
  | cons i rest ih =>
      have enoughHere := enough i List.mem_cons_self
      have countHere := counts i List.mem_cons_self
      have countsRest : ∀ j ∈ rest, pool.localRemainPages j = BitVec.ofNat 64 (free j).length :=
        fun j mem => counts j (List.mem_cons_of_mem _ mem)
      have enoughRest : ∀ j ∈ rest, (free j).length < fuel :=
        fun j mem => enough j (List.mem_cons_of_mem _ mem)
      simp [freeLists, freeList_linked (linked i) enoughHere, countHere,
        ih countsRest enoughRest]

theorem freeLists_done {pool : MemoryPool Thread} {free : ℕ → List Addr} {fuel : ℕ}
    (linked : ∀ i, Linked pool.next 0 (pool.localPools i) (free i))
    (counts : ∀ i, pool.localRemainPages i = BitVec.ofNat 64 (free i).length)
    (pools : List ℕ) (enough : ∀ i ∈ pools, (free i).length < fuel) (freed : List Addr) :
    freeLists pool fuel pools freed = some (.done (freed ++ pools.flatMap free)) :=
  freeLists_of_counts linked pools (fun i _ => counts i) enough freed

/-! ## One call at a time -/

/-- Calls start only while no other call is in progress. -/
def OneCallAtATime (pool : MemoryPool Thread) : Action Thread → Prop
  | .callAllocate _ => ∀ thread, pool.pc thread = .idle
  | .callDeallocate _ _ => ∀ thread, pool.pc thread = .idle
  | _ => True

/-- `allocate` starts on a pool whose list is not empty. -/
def StartsOnPages (cfg : Config Thread) (pool : MemoryPool Thread) : Action Thread → Prop
  | .callAllocate thread => pool.localPools (cfg.home thread) ≠ 0
  | _ => True

instance [Fintype Thread] (pool : MemoryPool Thread) :
    (action : Action Thread) → Decidable (OneCallAtATime pool action)
  | .callAllocate _ => inferInstanceAs (Decidable (∀ thread, pool.pc thread = .idle))
  | .callDeallocate _ _ => inferInstanceAs (Decidable (∀ thread, pool.pc thread = .idle))
  | .tick _ => isTrue trivial
  | .spuriousFailure _ => isTrue trivial
  | .overwrite _ _ _ => isTrue trivial

instance (cfg : Config Thread) (pool : MemoryPool Thread) :
    (action : Action Thread) → Decidable (StartsOnPages cfg pool action)
  | .callAllocate thread => inferInstanceAs (Decidable (pool.localPools (cfg.home thread) ≠ 0))
  | .callDeallocate _ _ => isTrue trivial
  | .tick _ => isTrue trivial
  | .spuriousFailure _ => isTrue trivial
  | .overwrite _ _ _ => isTrue trivial

/-- The call is between a compare-and-swap of a head and the matching counter update. -/
def Pc.betweenUpdates : Pc → Bool
  | .decrement _ page => page ≠ 0
  | .increment _ => true
  | _ => false

/-- What the counter of a pool is ahead of the length of its list. -/
def Pc.pending (cfg : Config Thread) (i : ℕ) : Pc → Counter
  | .decrement j page => if j = i ∧ page ≠ 0 then 1 else 0
  | .increment page => if cfg.poolIdx page = i then -1 else 0
  | _ => 0

theorem pending_eq_zero {cfg : Config Thread} {pc : Pc} (resting : pc.betweenUpdates = false)
    (i : ℕ) : pc.pending cfg i = 0 := by
  cases pc with
  | decrement j page =>
      simp only [Pc.betweenUpdates, decide_eq_false_iff_not, not_not] at resting
      simp [Pc.pending, resting]
  | increment page => simp [Pc.betweenUpdates] at resting
  | _ => rfl

/-- The locals of a call that started on a non-empty list and runs alone. -/
def Pc.Solo (pool : MemoryPool Thread) : Pc → Prop
  | .loadHead i => pool.localPools i ≠ 0
  | .loadNext i page => pool.localPools i = page ∧ page ≠ 0
  | .popCas i page next => pool.localPools i = page ∧ page ≠ 0 ∧ next = pool.next page
  | .decrement _ page => page ≠ 0
  | .returnPage page => page ≠ 0
  | .richestTest .. => False
  | .richestMax _ => False
  | .outOfBounds => False
  | _ => True

theorem Pc.Solo.congr {pool pool' : MemoryPool Thread} {pc : Pc} (solo : pc.Solo pool)
    (heads : pool'.localPools = pool.localPools) (links : pool'.next = pool.next) :
    pc.Solo pool' := by
  cases pc with
  | loadHead i => simpa only [Pc.Solo, heads] using solo
  | loadNext i page => simpa only [Pc.Solo, heads] using solo
  | popCas i page next => simpa only [Pc.Solo, heads, links] using solo
  | _ => exact solo

/-- The invariant of runs with one call at a time that start on non-empty lists. -/
structure Sequential (cfg : Config Thread) (pages : List Addr) (pool : MemoryPool Thread)
    (free : ℕ → List Addr) : Prop where
  conserved : Conserved cfg pages pool free
  alone : ∀ {thread other : Thread}, pool.pc thread ≠ .idle → other ≠ thread →
    pool.pc other = .idle
  solo : ∀ {thread : Thread}, (pool.pc thread).Solo pool
  resting : (∀ thread, pool.pc thread = .idle) →
    ∀ i, pool.localRemainPages i = BitVec.ofNat 64 (free i).length
  working : ∀ {thread : Thread}, pool.pc thread ≠ .idle →
    ∀ i, pool.localRemainPages i =
      BitVec.ofNat 64 (free i).length + (pool.pc thread).pending cfg i

namespace Change

variable {cfg : Config Thread} {before after : MemoryPool Thread} {action : Action Thread}
  {free free' : ℕ → List Addr}

theorem lists_eq (change : Change cfg before action after free free')
    (noCas : NoListEvent cfg before action) : free' = free := by
  cases change with
  | stay _ lists owners => exact lists
  | taken thread i page lost happens listed lists kept owner owners =>
      rcases happens with ⟨next, happens⟩
      simp [NoListEvent, happens] at noCas
  | given thread page happens listed lists owner owners =>
      simp [NoListEvent, happens] at noCas

theorem length_of_pops (change : Change cfg before action after free free')
    (fresh : PopsFresh cfg before action) {thread : Thread} {i : ℕ} {page next : Addr}
    (happens : event cfg before action = some (.pops thread i page next)) (j : ℕ) :
    (free j).length = (free' j).length + if j = i then 1 else 0 := by
  cases change with
  | stay noCas lists owners => simp [NoListEvent, happens] at noCas
  | taken taker k taken lost happened listed lists kept owner owners =>
      rcases happened with ⟨installed, happened⟩
      rw [happens, Option.some.injEq, Event.pops.injEq] at happened
      rcases happened with ⟨rfl, rfl, rfl, rfl⟩
      by_cases isPool : j = i
      · subst j
        simp [listed, kept fresh]
      · simp [lists j isPool, isPool]
  | given giver given happened listed lists owner owners => simp [happens] at happened

theorem length_of_pushes (change : Change cfg before action after free free')
    {thread : Thread} {i : ℕ} {page : Addr}
    (happens : event cfg before action = some (.pushes thread i page)) (j : ℕ) :
    (free' j).length = (free j).length + if j = i then 1 else 0 := by
  cases change with
  | stay noCas lists owners => simp [NoListEvent, happens] at noCas
  | taken taker k taken lost happened listed lists kept owner owners =>
      rcases happened with ⟨installed, happened⟩
      simp [happens] at happened
  | given giver given happened listed lists owner owners =>
      rw [happens, Option.some.injEq, Event.pushes.injEq] at happened
      rcases happened with ⟨rfl, rfl, rfl⟩
      by_cases isPool : j = cfg.poolIdx page
      · subst j
        simp [listed]
      · simp [lists j isPool, isPool]

end Change

namespace Sequential

variable {cfg : Config Thread} {pages : List Addr} {pool : MemoryPool Thread}
  {free : ℕ → List Addr}

theorem popsFresh (sequential : Sequential cfg pages pool free) (action : Action Thread) :
    PopsFresh cfg pool action := by
  unfold PopsFresh
  split
  · next thread i page next happens =>
      have solo : (pool.pc thread).Solo pool := sequential.solo
      rw [(event_pops happens).1] at solo
      exact solo.2.2
  · trivial

theorem of_actor (conserved : Conserved cfg pages pool free) (actor : Thread)
    (others : ∀ other, other ≠ actor → pool.pc other = .idle)
    (solo : (pool.pc actor).Solo pool)
    (counts : ∀ i, pool.localRemainPages i =
      BitVec.ofNat 64 (free i).length + (pool.pc actor).pending cfg i) :
    Sequential cfg pages pool free where
  conserved := conserved
  alone := by
    intro thread other working distinct
    by_cases isActor : other = actor
    · subst other
      exact absurd (others thread (Ne.symm distinct)) working
    · exact others other isActor
  solo := by
    intro thread
    by_cases isActor : thread = actor
    · exact isActor ▸ solo
    · rw [others thread isActor]
      trivial
  resting := by
    intro allIdle i
    rw [counts i, allIdle actor]
    simp [Pc.pending]
  working := by
    intro thread working i
    have isActor : thread = actor := by
      by_contra distinct
      exact working (others thread distinct)
    rw [isActor]
    exact counts i

theorem solo_of_retries {thread : Thread} {pc : Pc} (solo : (pool.pc thread).Solo pool)
    (retries : Retries (pool.pc thread) pc) :
    pc.Solo pool ∧ ∀ i, pc.pending cfg i = (pool.pc thread).pending cfg i := by
  generalize pool.pc thread = old at retries solo
  cases retries with
  | pop i page next =>
      rcases solo with ⟨rfl, page_ne, _⟩
      exact ⟨page_ne, fun j => rfl⟩
  | push page expected => exact ⟨trivial, fun j => rfl⟩

variable [DecidableEq Thread] {after : MemoryPool Thread} {action : Action Thread}
  {free' : ℕ → List Addr}

/-- The step of the only active thread keeps its locals current and its counter exact. -/
theorem tick_solo {thread : Thread} (solo : (pool.pc thread).Solo pool)
    (counts : ∀ i, pool.localRemainPages i =
      BitVec.ofNat 64 (free i).length + (pool.pc thread).pending cfg i)
    (stepped : step cfg pool (.tick thread) = some after)
    (fresh : PopsFresh cfg pool (.tick thread))
    (change : Change cfg pool (.tick thread) after free free') :
    (after.pc thread).Solo after ∧ ∀ i, after.localRemainPages i =
      BitVec.ofNat 64 (free' i).length + (after.pc thread).pending cfg i := by
  have quiet : NoListEvent cfg pool (.tick thread) → free' = free := change.lists_eq
  cases at_pc : pool.pc thread with
  | idle => simp [step, advance, at_pc] at stepped
  | outOfBounds => simp [at_pc, Pc.Solo] at solo
  | richestTest i richest maxRemain hasPage => simp [at_pc, Pc.Solo] at solo
  | richestMax i => simp [at_pc, Pc.Solo] at solo
  | loadHead i =>
      rw [at_pc] at solo counts
      rw [quiet (by simp [NoListEvent, event, at_pc])]
      simp only [step, advance, at_pc, if_neg solo, Option.some.injEq] at stepped
      subst after
      exact ⟨by simpa [goto, Pc.Solo] using solo, by simpa [goto, Pc.pending] using counts⟩
  | loadNext i page =>
      rw [at_pc] at solo counts
      rw [quiet (by simp [NoListEvent, event, at_pc])]
      simp only [step, advance, at_pc, Option.some.injEq] at stepped
      subst after
      exact ⟨by simpa [goto, Pc.Solo] using solo, by simpa [goto, Pc.pending] using counts⟩
  | popCas i page next =>
      rw [at_pc] at solo counts
      rcases solo with ⟨head_eq, page_ne, _⟩
      have happens : event cfg pool (.tick thread) = some (.pops thread i page next) := by
        simp [event, at_pc, head_eq]
      simp only [step, advance, at_pc, head_eq, and_self, if_true, Option.some.injEq] at stepped
      subst after
      refine ⟨by simpa [Pc.Solo] using page_ne, ?_⟩
      intro j
      have length_eq := change.length_of_pops fresh happens j
      by_cases isPool : j = i
      · subst j
        simp [counts, length_eq, Pc.pending, page_ne, BitVec.ofNat_add]
      · simp [counts, length_eq, Pc.pending, page_ne, isPool, Ne.symm isPool]
  | decrement i page =>
      rw [at_pc] at solo counts
      have page_ne : page ≠ 0 := solo
      rw [quiet (by simp [NoListEvent, event, at_pc])]
      simp only [step, advance, at_pc, if_neg page_ne, Option.some.injEq] at stepped
      subst after
      refine ⟨by simpa [Pc.Solo] using page_ne, ?_⟩
      intro j
      by_cases isPool : j = i
      · subst j
        have less : pool.localRemainPages i - 1#64 = BitVec.ofNat 64 (free i).length := by
          rw [counts i, Pc.pending, if_pos ⟨rfl, page_ne⟩]
          exact BitVec.add_sub_cancel _ _
        simpa [Pc.pending] using less
      · simp [counts, Pc.pending, page_ne, isPool, Ne.symm isPool]
  | returnPage page =>
      rw [at_pc] at solo counts
      rw [quiet (by simp [NoListEvent, event, at_pc])]
      simp only [step, advance, at_pc, Option.some.injEq] at stepped
      subst after
      exact ⟨by simp [Pc.Solo], by simpa [Pc.pending] using counts⟩
  | pushLoad page =>
      rw [at_pc] at counts
      rw [quiet (by simp [NoListEvent, event, at_pc])]
      simp only [step, advance, at_pc, Option.some.injEq] at stepped
      subst after
      exact ⟨by simp [goto, Pc.Solo], by simpa [goto, Pc.pending] using counts⟩
  | pushStore page expected =>
      rw [at_pc] at counts
      rw [quiet (by simp [NoListEvent, event, at_pc])]
      simp only [step, advance, at_pc, Option.some.injEq] at stepped
      subst after
      exact ⟨by simp [Pc.Solo], by simpa [Pc.pending] using counts⟩
  | pushCas page expected =>
      rw [at_pc] at counts
      by_cases head_eq : pool.localPools (cfg.poolIdx page) = expected
      · have happens : event cfg pool (.tick thread) =
            some (.pushes thread (cfg.poolIdx page) page) := by
          simp [event, at_pc, head_eq]
        simp only [step, advance, at_pc, head_eq, and_self, if_true, Option.some.injEq] at stepped
        subst after
        refine ⟨by simp [Pc.Solo], ?_⟩
        intro j
        have length_eq := change.length_of_pushes happens j
        by_cases isPool : j = cfg.poolIdx page
        · subst j
          simp [counts, length_eq, Pc.pending, BitVec.ofNat_add, BitVec.add_assoc]
        · simp [counts, length_eq, Pc.pending, isPool, Ne.symm isPool]
      · rw [quiet (by simp [NoListEvent, event, at_pc, head_eq])]
        simp only [step, advance, at_pc, head_eq, false_and, if_false,
          Option.some.injEq] at stepped
        subst after
        exact ⟨by simp [goto, Pc.Solo], by simpa [goto, Pc.pending] using counts⟩
  | increment page =>
      rw [at_pc] at counts
      rw [quiet (by simp [NoListEvent, event, at_pc])]
      simp only [step, advance, at_pc, Option.some.injEq] at stepped
      subst after
      refine ⟨by simp [Pc.Solo], ?_⟩
      intro j
      by_cases isPool : j = cfg.poolIdx page
      · subst j
        simp [counts, Pc.pending, BitVec.add_assoc]
      · simp [counts, Pc.pending, isPool, Ne.symm isPool]

theorem solo_of_overwrite (tracks : Tracks pool free) {thread holder : Thread}
    {written word : Addr} (solo : (pool.pc thread).Solo pool)
    (stepped : MemoryPool.step cfg pool (.overwrite holder written word) = some after) :
    (after.pc thread).Solo after := by
  have keptNext : ∀ {i : ℕ}, pool.localPools i ≠ 0 →
      after.next (pool.localPools i) = pool.next (pool.localPools i) :=
    fun {i} head_ne => tracks.step_next stepped ((tracks.linked i).head_mem head_ne)
  simp only [MemoryPool.step, Option.ite_none_right_eq_some, Option.some.injEq] at stepped
  rcases stepped with ⟨_, rfl⟩
  cases at_pc : pool.pc thread with
  | popCas i page next =>
      rw [at_pc] at solo
      rcases solo with ⟨head_eq, page_ne, next_eq⟩
      refine ⟨head_eq, page_ne, ?_⟩
      rw [next_eq, ← head_eq]
      exact (keptNext (head_eq ▸ page_ne)).symm
  | _ =>
      rw [at_pc] at solo
      exact solo

theorem step (sequential : Sequential cfg pages pool free)
    (alone : OneCallAtATime pool action) (startsOnPages : StartsOnPages cfg pool action)
    (stepped : MemoryPool.step cfg pool action = some after) :
    ∃ free', Sequential cfg pages after free' := by
  have fresh := sequential.popsFresh action
  rcases sequential.conserved.step fresh stepped with ⟨free', change, conserved⟩
  refine ⟨free', ?_⟩
  cases action with
  | callAllocate thread =>
      have lists := change.lists_eq (by simp [NoListEvent, event])
      subst lists
      have counts := sequential.resting alone
      simp only [MemoryPool.step, Option.ite_none_right_eq_some, Option.some.injEq] at stepped
      rcases stepped with ⟨_, rfl⟩
      apply of_actor conserved thread
      · intro other distinct
        simp [goto, distinct, alone other]
      · simpa [goto, Pc.Solo, StartsOnPages] using startsOnPages
      · simpa [goto, Pc.pending] using counts
  | callDeallocate thread page =>
      have lists := change.lists_eq (by simp [NoListEvent, event])
      subst lists
      have counts := sequential.resting alone
      simp only [MemoryPool.step, Option.ite_none_right_eq_some] at stepped
      rcases stepped with ⟨_, stepped⟩
      split at stepped
      · simp only [Option.some.injEq] at stepped
        subst after
        exact sequential
      · simp only [Option.ite_none_right_eq_some, Option.some.injEq] at stepped
        rcases stepped with ⟨_, rfl⟩
        apply of_actor conserved thread
        · intro other distinct
          simp [distinct, alone other]
        · simp [Pc.Solo]
        · simpa [Pc.pending] using counts
  | tick thread =>
      have working : pool.pc thread ≠ .idle := by
        intro isIdle
        simp [MemoryPool.step, advance, isIdle] at stepped
      have solo := tick_solo sequential.solo (sequential.working working) stepped fresh change
      rcases advance_follows stepped with ⟨pc, moved, _⟩
      refine of_actor conserved thread ?_ solo.1 solo.2
      intro other distinct
      simp [moved, distinct, sequential.alone working distinct]
  | spuriousFailure thread =>
      have lists := change.lists_eq (by simp [NoListEvent, event])
      subst lists
      simp only [MemoryPool.step, Option.ite_none_right_eq_some] at stepped
      have working : pool.pc thread ≠ .idle := by
        intro isIdle
        simp [isIdle, Pc.isCas] at stepped
      rcases advance_retries stepped.1 stepped.2 with ⟨pc, rfl, retries⟩
      have solo : pc.Solo pool ∧ ∀ i, pc.pending cfg i = (pool.pc thread).pending cfg i :=
        solo_of_retries sequential.solo retries
      apply of_actor conserved thread
      · intro other distinct
        simp [goto, distinct, sequential.alone working distinct]
      · have soloAfter : pc.Solo (pool.goto thread pc) := solo.1.congr rfl rfl
        simpa [goto] using soloAfter
      · intro i
        simpa [goto, solo.2 i] using sequential.working working i
  | overwrite holder page word =>
      have lists := change.lists_eq (by simp [NoListEvent, event])
      subst lists
      have keepsSolo : ∀ {thread : Thread}, (after.pc thread).Solo after :=
        solo_of_overwrite sequential.conserved.tracks sequential.solo stepped
      simp only [MemoryPool.step, Option.ite_none_right_eq_some, Option.some.injEq] at stepped
      rcases stepped with ⟨_, rfl⟩
      exact
        { conserved := conserved
          alone := sequential.alone
          solo := keepsSolo
          resting := sequential.resting
          working := sequential.working }

end Sequential

/-! ## Runs -/

/-- The counter of every pool is, as a `size_t`, the number of pages on its list. -/
def CountersExact (cfg : Config Thread) (pool : MemoryPool Thread) : Prop :=
  ∀ i < cfg.numPools, ∃ listed, Linked pool.next 0 (pool.localPools i) listed ∧
    (pool.localRemainPages i).toNat = listed.length

/-- Pages of at least 24 bytes that are aligned to their size do not overlap. -/
theorem AlignedPages.length_lt {cfg : Config Thread} {pages : List Addr}
    (aligned : AlignedPages cfg pages) : pages.length < 2 ^ 60 := by
  have recovered : ∀ page ∈ pages, cfg.pageSize * (page / cfg.pageSize) = page :=
    fun page mem => Nat.mul_div_cancel' (Nat.dvd_of_mod_eq_zero (aligned.aligned page mem))
  have injective : Set.InjOn (fun page => page / cfg.pageSize) pages.toFinset := by
    intro page mem page' mem' numbers_eq
    rw [Finset.mem_coe, List.mem_toFinset] at mem mem'
    rw [← recovered page mem, ← recovered page' mem']
    exact congrArg (cfg.pageSize * ·) numbers_eq
  have maps : Set.MapsTo (fun page => page / cfg.pageSize) pages.toFinset
      (Finset.Ico 1 (2 ^ 60) : Finset ℕ) := by
    intro page mem
    rw [Finset.mem_coe, List.mem_toFinset] at mem
    rw [Finset.mem_coe, Finset.mem_Ico]
    dsimp only
    have nonnull : (page : ℕ) ≠ 0 := aligned.nonnull page mem
    have inRange : (page : ℕ) < 2 ^ 64 := aligned.inRange page mem
    have number_le : page / cfg.pageSize ≤ page / 24 :=
      Nat.div_le_div_left cfg.page_fits (by decide)
    constructor
    · by_contra isZero
      have recoveredPage := recovered page mem
      rw [Nat.lt_one_iff.mp (Nat.lt_of_not_le isZero), Nat.mul_zero] at recoveredPage
      exact nonnull recoveredPage.symm
    · omega
  have card_le := Finset.card_le_card_of_injOn _ maps injective
  rw [List.toFinset_card_of_nodup aligned.nodup, Nat.card_Ico] at card_le
  omega

theorem Conserved.length_le {cfg : Config Thread} {pages : List Addr}
    {pool : MemoryPool Thread} {free : ℕ → List Addr}
    (conserved : Conserved cfg pages pool free) (i : ℕ) : (free i).length ≤ pages.length := by
  have nodup : (free i).Nodup := conserved.tracks.exclusive.nodup (.free i)
  have subset : free i ⊆ pages :=
    fun page mem => (conserved.records_iff page).mp ⟨.free i, mem⟩
  exact (List.subperm_of_subset nodup subset).length_le

theorem Conserved.length_lt {cfg : Config Thread} {pages : List Addr}
    {pool : MemoryPool Thread} {free : ℕ → List Addr} (conserved : Conserved cfg pages pool free)
    (aligned : AlignedPages cfg pages) (i : ℕ) : (free i).length < 2 ^ 60 :=
  Nat.lt_of_le_of_lt (conserved.length_le i) aligned.length_lt

theorem Conserved.toNat_length {cfg : Config Thread} {pages : List Addr}
    {pool : MemoryPool Thread} {free : ℕ → List Addr} (conserved : Conserved cfg pages pool free)
    (aligned : AlignedPages cfg pages) (i : ℕ) :
    (BitVec.ofNat 64 (free i).length).toNat = (free i).length := by
  rw [BitVec.toNat_ofNat]
  exact Nat.mod_eq_of_lt (Nat.lt_trans (conserved.length_lt aligned i) (by decide))

theorem Sequential.countersExact {cfg : Config Thread} {pages : List Addr}
    (aligned : AlignedPages cfg pages) {pool : MemoryPool Thread} {free : ℕ → List Addr}
    (sequential : Sequential cfg pages pool free)
    (settled : ∀ thread, (pool.pc thread).betweenUpdates = false) :
    CountersExact cfg pool := by
  have counts : ∀ i, pool.localRemainPages i = BitVec.ofNat 64 (free i).length := by
    by_cases allIdle : ∀ thread, pool.pc thread = .idle
    · exact sequential.resting allIdle
    · rw [not_forall] at allIdle
      rcases allIdle with ⟨thread, working⟩
      intro i
      rw [sequential.working working i, pending_eq_zero (settled thread)]
      exact BitVec.add_zero _
  intro i _
  refine ⟨free i, sequential.conserved.tracks.linked i, ?_⟩
  rw [counts i]
  exact sequential.conserved.toNat_length aligned i

theorem Sequential.destructor_done {cfg : Config Thread} {pages : List Addr}
    (aligned : AlignedPages cfg pages) {pool : MemoryPool Thread} {free : ℕ → List Addr}
    (sequential : Sequential cfg pages pool free)
    (perPool : pool.pagesPerPool = (construct cfg pages).pagesPerPool)
    (allIdle : ∀ thread, pool.pc thread = .idle) (returned : ∀ thread, pool.held thread = [])
    {fuel : ℕ} (enough : pages.length < fuel) :
    destructor cfg pool fuel = some (.done ((List.range cfg.numPools).flatMap free)) := by
  have counts := sequential.resting allIdle
  have nothingOwned : ∀ thread, pool.owned thread = [] := by
    simp [owned, allIdle, returned]
  have tallies : ∀ i < cfg.numPools,
      pool.localRemainPages i = BitVec.ofNat 64 (pool.pagesPerPool i) := by
    intro i _
    rw [counts i, perPool, (construct_built aligned).perPool i]
    rw [(sequential.conserved.perm_initialFree aligned.nodup nothingOwned i).length_eq]
  have short : ∀ i ∈ List.range cfg.numPools, (free i).length < fuel :=
    fun i _ => Nat.lt_of_le_of_lt (sequential.conserved.length_le i) enough
  rw [destructor, if_pos tallies]
  exact freeLists_done sequential.conserved.tracks.linked counts _ short []

section

variable [DecidableEq Thread]

theorem step_pagesPerPool {cfg : Config Thread} {before after : MemoryPool Thread}
    {action : Action Thread} (stepped : step cfg before action = some after) :
    after.pagesPerPool = before.pagesPerPool := by
  have advanced : ∀ {thread : Thread} {weakFails : Bool},
      advance cfg before thread weakFails = some after →
        after.pagesPerPool = before.pagesPerPool := by
    intro thread weakFails advanced
    unfold advance at advanced
    split at advanced
    all_goals (try split at advanced)
    all_goals
      first
      | contradiction
      | simp only [Option.some.injEq] at advanced
        subst after
        rfl
  cases action with
  | callAllocate thread =>
      simp only [step, Option.ite_none_right_eq_some, Option.some.injEq] at stepped
      rw [← stepped.2, goto]
  | callDeallocate thread page =>
      simp only [step, Option.ite_none_right_eq_some] at stepped
      rcases stepped with ⟨_, stepped⟩
      split at stepped
      · simp only [Option.some.injEq] at stepped
        rw [stepped]
      · simp only [Option.ite_none_right_eq_some, Option.some.injEq] at stepped
        rw [← stepped.2]
  | tick thread => exact advanced stepped
  | spuriousFailure thread =>
      simp only [step, Option.ite_none_right_eq_some] at stepped
      exact advanced stepped.2
  | overwrite thread page word =>
      simp only [step, Option.ite_none_right_eq_some, Option.some.injEq] at stepped
      rw [← stepped.2]

theorem run_pagesPerPool {cfg : Config Thread} {pages : List Addr}
    {past : History (MemoryPool Thread) (Action Thread)} {pool : MemoryPool Thread}
    (run : Run (step cfg) (construct cfg pages) past pool) :
    pool.pagesPerPool = (construct cfg pages).pagesPerPool := by
  induction run with
  | start => rfl
  | step run stepped ih => rw [step_pagesPerPool stepped, ih]

theorem sequential_of_startsOnPages {cfg : Config Thread} {pages : List Addr}
    (aligned : AlignedPages cfg pages) {past : History (MemoryPool Thread) (Action Thread)}
    {pool : MemoryPool Thread} (run : Run (step cfg) (construct cfg pages) past pool)
    (oneCall : Guarded OneCallAtATime past) (startsOnPages : Guarded (StartsOnPages cfg) past) :
    ∃ free, Sequential cfg pages pool free := by
  induction run with
  | start =>
      have built := construct_built aligned
      exact ⟨initialFree cfg pages,
        { conserved := built.conserved aligned.nodup
          alone := fun working _ => absurd (built.idle _) working
          solo := by simp [built.idle, Pc.Solo]
          resting := fun _ => built.remain
          working := fun working => absurd (built.idle _) working }⟩
  | step run stepped ih =>
      rcases ih oneCall.tail startsOnPages.tail with ⟨free, sequential⟩
      exact sequential.step oneCall.head startsOnPages.head stepped

/-- In every run with one call at a time whose `allocate` calls start on non-empty
lists, the counters are exact wherever no call is between its compare-and-swap and
its counter update, and the assertions of the destructor hold once all pages are
returned. -/
theorem countersExact_of_startsOnPages {cfg : Config Thread} {pages : List Addr}
    (aligned : AlignedPages cfg pages) {past : History (MemoryPool Thread) (Action Thread)}
    {pool : MemoryPool Thread} (run : Run (step cfg) (construct cfg pages) past pool)
    (oneCall : Guarded OneCallAtATime past)
    (startsOnPages : Guarded (StartsOnPages cfg) past) :
    ((∀ thread, (pool.pc thread).betweenUpdates = false) → CountersExact cfg pool) ∧
      ((∀ thread, pool.pc thread = .idle) → (∀ thread, pool.held thread = []) →
        ∃ freed, ∀ fuel, pages.length < fuel →
          destructor cfg pool fuel = some (.done freed)) := by
  rcases sequential_of_startsOnPages aligned run oneCall startsOnPages with ⟨free, sequential⟩
  refine ⟨sequential.countersExact aligned, ?_⟩
  intro allIdle returned
  refine ⟨(List.range cfg.numPools).flatMap free, fun fuel enough => ?_⟩
  exact sequential.destructor_done aligned (run_pagesPerPool run) allIdle returned enough

end

/-- Both pages are taken and returned in calls of two threads, with writes to a held page. -/
theorem countersExact_after_return :
    ∃ past pool, Run (step onePool) (construct onePool [4096, 8192]) past pool ∧
      past.length = 26 ∧ CountersExact onePool pool ∧
        ∃ freed, ∀ fuel, 2 < fuel → destructor onePool pool fuel = some (.done freed) := by
  have ran := Run.exists_of_perform (step onePool)
    (construct onePool [4096, 8192])
    [.callAllocate 0, .tick 0, .tick 0, .tick 0, .tick 0, .tick 0,
      .callAllocate 1, .tick 1, .tick 1, .overwrite 0 8192 42, .tick 1, .tick 1, .tick 1,
      .callDeallocate 0 8192, .tick 0, .tick 0, .spuriousFailure 0, .tick 0, .tick 0, .tick 0,
      .tick 0, .callDeallocate 1 4096, .tick 1, .tick 1, .tick 1, .tick 1]
    (fun past pool => past.length = 26 &&
      past.all (fun moment => decide (OneCallAtATime moment.1 moment.2)) &&
      past.all (fun moment => decide (StartsOnPages onePool moment.1 moment.2)) &&
      decide (∀ thread, pool.pc thread = .idle) && decide (∀ thread, pool.held thread = []))
    (by decide +kernel)
  rcases ran with ⟨past, pool, run, checked⟩
  simp only [Bool.and_eq_true, decide_eq_true_eq, List.all_eq_true] at checked
  rcases checked with ⟨⟨⟨⟨length_eq, oneCall⟩, startsOnPages⟩, allIdle⟩, returned⟩
  have exact := countersExact_of_startsOnPages onePool_aligned run oneCall startsOnPages
  refine ⟨past, pool, run, length_eq, exact.1 ?_, exact.2 allIdle returned⟩
  simp [allIdle, Pc.betweenUpdates]

/-- Two pools; the pages `8192` and `16384` are both in the first one. -/
def twoPools : Config (Fin 2) where
  numPools := 2
  pageSize := 4096
  hash := Fin.val
  numPools_pos := by decide
  page_fits := page_fits_4096

/-- Thread `1` finds its list empty and its counter goes from `0` to `2 ^ 64 - 1`. -/
theorem decrement_of_empty_list_wraps :
    ¬∀ (past : History (MemoryPool (Fin 2)) (Action (Fin 2))) (pool : MemoryPool (Fin 2)),
      AlignedPages twoPools [8192, 16384] →
        Run (step twoPools) (construct twoPools [8192, 16384]) past pool →
          Guarded OneCallAtATime past →
            (∀ thread, (pool.pc thread).betweenUpdates = false) → CountersExact twoPools pool := by
  intro always
  have aligned : AlignedPages twoPools [8192, 16384] :=
    ⟨by decide, by decide, by decide, by decide⟩
  have ran := Run.exists_of_perform (step twoPools)
    (construct twoPools [8192, 16384])
    [.callAllocate 1, .tick 1, .tick 1]
    (fun past pool =>
      past.all (fun moment => decide (OneCallAtATime moment.1 moment.2)) &&
      decide (∀ thread, (pool.pc thread).betweenUpdates = false) &&
      decide (pool.localPools 1 = 0) &&
      decide ((pool.localRemainPages 1).toNat = 2 ^ 64 - 1))
    (by decide +kernel)
  rcases ran with ⟨past, pool, run, checked⟩
  simp only [Bool.and_eq_true, decide_eq_true_eq, List.all_eq_true] at checked
  rcases checked with ⟨⟨⟨oneCall, settled⟩, isEmpty⟩, wrapped⟩
  rcases always past pool aligned run oneCall settled 1 (by decide) with ⟨listed, linked, count⟩
  rw [isEmpty] at linked
  have noPages : listed = [] := linked.eq_nil_iff.mpr rfl
  simp [noPages, wrapped] at count

end UserLevelMmap.MemoryPool
