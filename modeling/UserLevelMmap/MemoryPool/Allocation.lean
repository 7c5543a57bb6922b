import UserLevelMmap.MemoryPool.Counters

/-!
# The constructor when allocation fails

`construct` is what the constructor builds from pages that it has obtained. This
file embeds the constructor itself, with every call of `std::aligned_alloc`
returning a block or null, and compares it with the contract of a constructor that
succeeds as a whole or throws and leaves nothing behind.

The loop stores to `page->next` before it tests `page`. The branch that throws
`std::bad_alloc` is therefore never reached, and it would not release the pages
obtained before it either.
-/

namespace UserLevelMmap.MemoryPool

variable {Thread : Type}

/-- The arguments of the constructor. -/
structure Arguments where
  numPools : ℕ
  pagesPerPool : ℕ
  pageSize : ℕ
  numPools_pos : 1 ≤ numPools

namespace Arguments

/-- The bound of the loop, `num_pools * pagesPerPool` as a `size_t`. -/
def calls (args : Arguments) : ℕ :=
  args.numPools * args.pagesPerPool % 2 ^ 64

/-- The configuration of the pool, for pages with room for their `Page` header. -/
def config (args : Arguments) (hash : Thread → ℕ) (fits : 24 ≤ args.pageSize) : Config Thread where
  numPools := args.numPools
  pageSize := args.pageSize
  hash := hash
  numPools_pos := args.numPools_pos
  page_fits := fits

end Arguments

/-- How the constructor ends. -/
inductive Constructed (Thread : Type) where
  | done (pool : MemoryPool Thread)
  /-- `std::bad_alloc` was thrown after the release of the given pages. -/
  | badAlloc (released : List Addr)
  | assertionFailed
  /-- A store through a null pointer. -/
  | nullStore
  /-- A store behind the end of an allocated block. -/
  | overrun

/-- The loop of the constructor with the assertions after it; `alloc pid` is what
`std::aligned_alloc(page_size, page_size)` returns in iteration `pid`. -/
def constructLoop (args : Arguments) (hash : Thread → ℕ) (alloc : ℕ → Addr) :
    ℕ → ℕ → MemoryPool Thread → Constructed Thread
  | 0, _, pool =>
      if ∀ i < args.numPools,
          pool.localRemainPages i = BitVec.ofNat 64 (pool.pagesPerPool i) then .done pool
      else .assertionFailed
  | remaining + 1, pid, pool =>
      let page := alloc pid
      -- `page->next.store(nullptr)`
      if page = 0 then .nullStore
      else if fits : 24 ≤ args.pageSize then
        if page % args.pageSize ≠ 0 then .assertionFailed
        else if page ≠ 0 then
          constructLoop args hash alloc remaining (pid + 1)
            (addPage (args.config hash fits) pool page)
        else .badAlloc []
      else .overrun

/-- `MemoryPool::MemoryPool`. -/
def construction (args : Arguments) (hash : Thread → ℕ) (alloc : ℕ → Addr) : Constructed Thread :=
  constructLoop args hash alloc args.calls 0 empty

/-- The blocks returned in the first calls. -/
def obtained (alloc : ℕ → Addr) (count : ℕ) : List Addr :=
  (List.range count).map alloc

/-- What `std::aligned_alloc` promises: null, or an aligned block that is not in use. -/
structure FreshOrNull (args : Arguments) (alloc : ℕ → Addr) : Prop where
  aligned : ∀ k, alloc k ≠ 0 → alloc k % args.pageSize = 0
  inRange : ∀ k, alloc k < 2 ^ 64
  fresh : ∀ j k, j < k → alloc j ≠ 0 → alloc k ≠ alloc j

/-- Each page is on the list of its address and on no other, and the two counters of a pool
are the length of its list. -/
def HoldsPages (args : Arguments) (pages : List Addr) (pool : MemoryPool Thread) : Prop :=
  ∀ i < args.numPools, ∃ listed, Linked pool.next 0 (pool.localPools i) listed ∧ listed.Nodup ∧
    (∀ page, page ∈ listed ↔ page ∈ pages ∧ page / args.pageSize % args.numPools = i) ∧
    (pool.localRemainPages i).toNat = listed.length ∧ pool.pagesPerPool i = listed.length

/-- The constructor has built the whole pool, or it has thrown at the first null pointer
after the release of the pages obtained before. -/
def AllOrNothing (args : Arguments) (alloc : ℕ → Addr) (outcome : Constructed Thread) : Prop :=
  ((∀ k < args.calls, alloc k ≠ 0) ∧
    ∃ pool, outcome = .done pool ∧ HoldsPages args (obtained alloc args.calls) pool) ∨
  ∃ k < args.calls, (∀ j < k, alloc j ≠ 0) ∧ alloc k = 0 ∧
    ∃ released, outcome = .badAlloc released ∧ released.Perm (obtained alloc k)

section

variable {args : Arguments} {hash : Thread → ℕ} {alloc : ℕ → Addr}

theorem alignedPages_obtained (fresh : FreshOrNull args alloc) (fits : 24 ≤ args.pageSize)
    {count : ℕ} (succeed : ∀ k < count, alloc k ≠ 0) :
    AlignedPages (args.config hash fits) (obtained alloc count) where
  nodup := by
    rw [obtained, List.nodup_map_iff_inj_on List.nodup_range]
    intro j jMem k kMem same
    rw [List.mem_range] at jMem kMem
    rcases Nat.lt_trichotomy j k with before | equal | after
    · exact absurd same.symm (fresh.fresh j k before (succeed j jMem))
    · exact equal
    · exact absurd same (fresh.fresh k j after (succeed k kMem))
  nonnull := by
    simpa [obtained] using succeed
  aligned := by
    simp only [obtained, List.mem_map, List.mem_range]
    rintro page ⟨k, below, rfl⟩
    exact fresh.aligned k (succeed k below)
  inRange := by
    simp only [obtained, List.mem_map, List.mem_range]
    rintro page ⟨k, below, rfl⟩
    exact fresh.inRange k

theorem constructLoop_of_block (fresh : FreshOrNull args alloc) (fits : 24 ≤ args.pageSize)
    {pid : ℕ} (page_ne : alloc pid ≠ 0) (remaining : ℕ) (pool : MemoryPool Thread) :
    constructLoop args hash alloc (remaining + 1) pid pool =
      constructLoop args hash alloc remaining (pid + 1)
        (addPage (args.config hash fits) pool (alloc pid)) := by
  rw [constructLoop]
  simp only [page_ne, if_false, dif_pos fits, fresh.aligned pid page_ne, ne_eq, not_true_eq_false,
    not_false_eq_true, if_true]

/-- As long as all calls succeed the loop adds one page after the other. -/
theorem constructLoop_of_success (fresh : FreshOrNull args alloc) (fits : 24 ≤ args.pageSize)
    {remaining pid : ℕ} (succeed : ∀ k < remaining, alloc (pid + k) ≠ 0)
    (pool : MemoryPool Thread) :
    constructLoop args hash alloc remaining pid pool =
      constructLoop args hash alloc 0 (pid + remaining)
        (((List.range' pid remaining).map alloc).foldl (addPage (args.config hash fits)) pool) := by
  induction remaining generalizing pid pool with
  | zero => rfl
  | succ remaining ih =>
      have page_ne : alloc pid ≠ 0 := succeed 0 (by omega)
      have succeedRest : ∀ k < remaining, alloc (pid + 1 + k) ≠ 0 := by
        intro k below
        have later := succeed (k + 1) (by omega)
        rwa [show pid + (k + 1) = pid + 1 + k by omega] at later
      rw [constructLoop_of_block fresh fits page_ne, ih succeedRest, List.range'_succ,
        List.map_cons, List.foldl_cons, show pid + 1 + remaining = pid + (remaining + 1) by omega]

/-- A null pointer and a page without room for its header both end in a store to memory that
the constructor does not own. -/
theorem constructLoop_of_failure (fresh : FreshOrNull args alloc) {remaining pid : ℕ}
    (some_call : 0 < remaining)
    (fails : ¬(24 ≤ args.pageSize ∧ ∀ k < remaining, alloc (pid + k) ≠ 0))
    (pool : MemoryPool Thread) :
    constructLoop args hash alloc remaining pid pool = .nullStore ∨
      constructLoop args hash alloc remaining pid pool = .overrun := by
  induction remaining generalizing pid pool with
  | zero => omega
  | succ remaining ih =>
      by_cases isNull : alloc pid = 0
      · left
        rw [constructLoop]
        simp only [isNull, if_true]
      · by_cases fits : 24 ≤ args.pageSize
        · have failsRest : ¬(24 ≤ args.pageSize ∧
              ∀ k < remaining, alloc (pid + 1 + k) ≠ 0) := by
            rintro ⟨_, succeedRest⟩
            apply fails
            refine ⟨fits, ?_⟩
            intro k below
            cases k with
            | zero => exact isNull
            | succ k =>
                rw [show pid + (k + 1) = pid + 1 + k by omega]
                apply succeedRest
                omega
          have rest_pos : 0 < remaining := by
            by_contra noRest
            apply failsRest
            refine ⟨fits, ?_⟩
            omega
          rw [constructLoop_of_block fresh fits isNull]
          exact ih rest_pos failsRest _
        · right
          rw [constructLoop]
          simp only [if_neg isNull, dif_neg fits]

theorem construction_of_success (fresh : FreshOrNull args alloc) (fits : 24 ≤ args.pageSize)
    (succeed : ∀ k < args.calls, alloc k ≠ 0) :
    construction args hash alloc =
      .done (construct (args.config hash fits) (obtained alloc args.calls)) := by
  have aligned : AlignedPages (args.config hash fits) (obtained alloc args.calls) :=
    alignedPages_obtained fresh fits succeed
  have built := construct_built aligned
  have asserted : ∀ i < args.numPools,
      (construct (args.config hash fits) (obtained alloc args.calls)).localRemainPages i =
        BitVec.ofNat 64
          ((construct (args.config hash fits) (obtained alloc args.calls)).pagesPerPool i) := by
    intro i _
    rw [built.remain i, built.perPool i]
  have succeedFrom : ∀ k < args.calls, alloc (0 + k) ≠ 0 := by
    simpa using succeed
  rw [construction, constructLoop_of_success fresh fits succeedFrom, ← List.range_eq_range']
  exact if_pos asserted

theorem holdsPages_construct (fresh : FreshOrNull args alloc) (fits : 24 ≤ args.pageSize)
    (succeed : ∀ k < args.calls, alloc k ≠ 0) :
    HoldsPages args (obtained alloc args.calls)
      (construct (args.config hash fits) (obtained alloc args.calls)) := by
  have aligned : AlignedPages (args.config hash fits) (obtained alloc args.calls) :=
    alignedPages_obtained fresh fits succeed
  have built := construct_built aligned
  have conserved := built.conserved aligned.nodup
  intro i _
  refine ⟨_, built.linked i, conserved.tracks.exclusive.nodup (.free i), ?_, ?_, built.perPool i⟩
  · intro page
    exact mem_initialFree
  · rw [built.remain i]
    exact conserved.toNat_length aligned i

/-- For all arguments and all outcomes of `std::aligned_alloc` the constructor is
all-or-nothing exactly when there is nothing to allocate, or when pages have room for their
header and no call returns null. -/
theorem construction_allOrNothing_iff (fresh : FreshOrNull args alloc) :
    AllOrNothing args alloc (construction args hash alloc) ↔
      args.calls = 0 ∨ 24 ≤ args.pageSize ∧ ∀ k < args.calls, alloc k ≠ 0 := by
  constructor
  · intro kept
    by_contra fails
    rw [not_or] at fails
    have failsFrom : ¬(24 ≤ args.pageSize ∧ ∀ k < args.calls, alloc (0 + k) ≠ 0) := by
      simpa using fails.2
    rcases constructLoop_of_failure fresh (Nat.pos_of_ne_zero fails.1) failsFrom empty with
      crashed | crashed <;>
    · rw [AllOrNothing, construction, crashed] at kept
      rcases kept with ⟨_, pool, isDone, _⟩ | ⟨k, _, _, _, released, isThrown, _⟩
      · contradiction
      · contradiction
  · rintro (noCall | ⟨fits, succeed⟩)
    · left
      refine ⟨by omega, empty, ?_, ?_⟩
      · rw [construction, noCall, constructLoop]
        exact if_pos (fun i _ => rfl)
      · intro i _
        refine ⟨[], rfl, List.nodup_nil, ?_, rfl, rfl⟩
        simp [noCall, obtained]
    · left
      refine ⟨succeed, _, construction_of_success fresh fits succeed, ?_⟩
      exact holdsPages_construct fresh fits succeed

end

theorem two_pools_pos : 1 ≤ 2 := by decide

/-- Two pools of two pages. -/
def fourPages : Arguments where
  numPools := 2
  pagesPerPool := 2
  pageSize := 4096
  numPools_pos := two_pools_pos

/-- The first calls return one page after the other, and all later ones return null. -/
def firstBlocks (count k : ℕ) : ℕ :=
  if k < count then (k + 1) * 4096 else 0

theorem firstBlocks_freshOrNull {count : ℕ} (few : count ≤ 4) :
    FreshOrNull fourPages (firstBlocks count) := by
  have aligned : ∀ k, firstBlocks count k % 4096 = 0 := by
    intro k
    unfold firstBlocks
    split_ifs <;> omega
  have inRange : ∀ k, firstBlocks count k < 2 ^ 64 := by
    intro k
    unfold firstBlocks
    split_ifs <;> omega
  have fresh : ∀ j k, j < k → firstBlocks count j ≠ 0 →
      firstBlocks count k ≠ firstBlocks count j := by
    intro j k before page_ne
    have jBelow : j < count := by
      by_contra above
      exact page_ne (if_neg above)
    rw [firstBlocks, firstBlocks, if_pos jBelow]
    split_ifs <;> omega
  exact ⟨fun k _ => aligned k, inRange, fresh⟩

theorem construction_of_four_blocks :
    AllOrNothing fourPages (firstBlocks 4)
      (construction fourPages (fun _ : Fin 2 => 0) (firstBlocks 4)) := by
  apply (construction_allOrNothing_iff (firstBlocks_freshOrNull (by decide))).mpr
  right
  decide

/-- The third call returns null and the constructor stores through the pointer. -/
theorem construction_stores_through_null :
    construction fourPages (fun _ : Fin 2 => 0) (firstBlocks 2) = .nullStore ∧
      FreshOrNull fourPages (firstBlocks 2) ∧
      ¬AllOrNothing fourPages (firstBlocks 2)
        (construction fourPages (fun _ : Fin 2 => 0) (firstBlocks 2)) := by
  have crashes : construction fourPages (fun _ : Fin 2 => 0) (firstBlocks 2) = .nullStore := rfl
  refine ⟨crashes, firstBlocks_freshOrNull (by decide), ?_⟩
  rw [crashes]
  rintro (⟨_, pool, isDone, _⟩ | ⟨k, _, _, _, released, isThrown, _⟩)
  · contradiction
  · contradiction

end UserLevelMmap.MemoryPool
