import Mathlib.Data.List.Basic
import Mathlib.Logic.Function.Basic
import Mathlib.Data.Int.Notation
import Mathlib.Data.Nat.Notation
import UserLevelMmap.Library.Run

/-!
# The lock-free page pool

`MemoryPool` (`src/phy_page_pool.h`) keeps one Treiber stack of free pages and
one counter for every pool. This file embeds its constructor, `allocate`,
`get_rough_richest_pool` and `deallocate` as a transition system over any
number of threads. Every atomic access of the source is one step: the load of a
head, the load and the store of `Page::next`, the compare-and-swap of a head,
the update of a counter, and each of the two reads of a counter in
`get_rough_richest_pool`. The local computation between two atomic accesses
belongs to the step of the first one.

Page addresses and the words stored in `Page::next` are natural numbers with
`0` as the null pointer; the counters are 64-bit words, since the source lets
them wrap around. A page is large enough for its `Page` header, so each page
has a `next` word of its own; the owner of a page may overwrite it.
-/

namespace UserLevelMmap

/-- A page address, or the word found where a `Page*` is stored; `0` is null. -/
abbrev Addr := ℕ

namespace MemoryPool

/-- A `size_t` held in a `std::atomic<size_t>`. -/
abbrev Counter := BitVec 64

/-- The parameters of a pool and the hash that selects the home pool of a thread. -/
structure Config (Thread : Type) where
  numPools : ℕ
  pageSize : ℕ
  hash : Thread → ℕ
  numPools_pos : 1 ≤ numPools
  /-- `sizeof(Page)`: the word `Page::next` ends 24 bytes into its page. -/
  page_fits : 24 ≤ pageSize

/-- The pool of a page, `((size_t)page / page_size) % num_pools`. -/
def Config.poolIdx {Thread : Type} (cfg : Config Thread) (page : Addr) : ℕ :=
  page / cfg.pageSize % cfg.numPools

/-- The pool with which `allocate` starts in a thread. -/
def Config.home {Thread : Type} (cfg : Config Thread) (thread : Thread) : ℕ :=
  cfg.hash thread % cfg.numPools

/-- The next atomic step of a thread, with the values of its live local variables. -/
inductive Pc where
  | idle
  /-- `allocate`: load the head of the pool. -/
  | loadHead (pool : ℕ)
  /-- `allocate`: load `page->next`. -/
  | loadNext (pool : ℕ) (page : Addr)
  /-- `allocate`: compare-and-swap the head from `page` to `next`. -/
  | popCas (pool : ℕ) (page next : Addr)
  /-- `allocate`: decrement the counter, whether or not `page` is null. -/
  | decrement (pool : ℕ) (page : Addr)
  /-- `get_rough_richest_pool`: compare the counter with the maximum so far. -/
  | richestTest (pool richest : ℕ) (maxRemain : Counter) (hasPage : Bool)
  /-- `get_rough_richest_pool`: read the counter again as the new maximum. -/
  | richestMax (pool : ℕ)
  /-- `allocate`: return to the caller. -/
  | returnPage (page : Addr)
  /-- `deallocate`: load the head of the page's pool. -/
  | pushLoad (page : Addr)
  /-- `deallocate`: store the loaded head into `page->next`. -/
  | pushStore (page expected : Addr)
  /-- `deallocate`: compare-and-swap the head from `expected` to `page`. -/
  | pushCas (page expected : Addr)
  /-- `deallocate`: increment the counter. -/
  | increment (page : Addr)
  /-- The index computed by `get_rough_richest_pool` left the vectors. -/
  | outOfBounds
  deriving DecidableEq, Repr

end MemoryPool

/-- The shared memory of a pool, the threads inside its calls and the pages held by callers. -/
structure MemoryPool (Thread : Type) where
  localPools : ℕ → Addr
  next : Addr → Addr
  localRemainPages : ℕ → MemoryPool.Counter
  pagesPerPool : ℕ → ℕ
  pc : Thread → MemoryPool.Pc
  held : Thread → List Addr

namespace MemoryPool

/-- What a thread does next; `tick` performs the atomic step its call has reached. -/
inductive Action (Thread : Type) where
  | callAllocate (thread : Thread)
  | callDeallocate (thread : Thread) (page : Addr)
  | tick (thread : Thread)
  /-- The step of a `compare_exchange_weak` that fails spuriously. -/
  | spuriousFailure (thread : Thread)
  /-- A holder of the page writes to the word of `Page::next`. -/
  | overwrite (thread : Thread) (page word : Addr)
  deriving DecidableEq, Repr

variable {Thread : Type} [DecidableEq Thread]

/-! ## The constructor -/

/-- The vectors before the first page is allocated. -/
def empty : MemoryPool Thread where
  localPools _ := 0
  next _ := 0
  localRemainPages _ := 0
  pagesPerPool _ := 0
  pc _ := .idle
  held _ := []

/-- One iteration of the constructor's loop for a page that was obtained. -/
def addPage (cfg : Config Thread) (pool : MemoryPool Thread) (page : Addr) :
    MemoryPool Thread :=
  let next := Function.update pool.next page 0
  let idx := cfg.poolIdx page
  { pool with
    pagesPerPool := Function.update pool.pagesPerPool idx (pool.pagesPerPool idx + 1)
    next := Function.update next page (pool.localPools idx)
    localPools := Function.update pool.localPools idx page
    localRemainPages :=
      Function.update pool.localRemainPages idx (pool.localRemainPages idx + 1) }

/-- The pool built from the pages that `std::aligned_alloc` returned, in this order. -/
def construct (cfg : Config Thread) (pages : List Addr) : MemoryPool Thread :=
  pages.foldl (addPage cfg) empty

/-- What `std::aligned_alloc(page_size, page_size)` promises about the blocks it returns. -/
structure AlignedPages (cfg : Config Thread) (pages : List Addr) : Prop where
  nodup : pages.Nodup
  nonnull : ∀ page ∈ pages, page ≠ 0
  aligned : ∀ page ∈ pages, page % cfg.pageSize = 0
  inRange : ∀ page ∈ pages, page < 2 ^ 64

/-! ## The atomic steps -/

/-- The conversion of a `size_t` to the `int` that `get_rough_richest_pool` returns. -/
def toInt (index : ℕ) : ℤ :=
  Int.bmod index (2 ^ 32)

/-- The head of the loop of `get_rough_richest_pool`, and what `allocate` does after it. -/
def Config.richestLoop (cfg : Config Thread) (pool richest : ℕ) (maxRemain : Counter)
    (hasPage : Bool) : Pc :=
  if pool < cfg.numPools then
    .richestTest pool richest maxRemain hasPage
  else
    let ret := if hasPage = false then -1 else toInt richest
    if ret = -1 then
      .returnPage 0
    else if 0 ≤ ret ∧ ret < cfg.numPools then
      .loadHead ret.toNat
    else
      .outOfBounds

/-- Continue a thread at another step, with the memory unchanged. -/
def goto (pool : MemoryPool Thread) (thread : Thread) (pc : Pc) : MemoryPool Thread :=
  { pool with pc := Function.update pool.pc thread pc }

/-- Perform the step a thread has reached. A compare-and-swap fails when the
head differs from the expected value, and `weakFails` lets it fail spuriously. -/
def advance (cfg : Config Thread) (pool : MemoryPool Thread) (thread : Thread)
    (weakFails : Bool) : Option (MemoryPool Thread) :=
  match pool.pc thread with
  | .idle => none
  | .outOfBounds => none
  | .loadHead i =>
      let page := pool.localPools i
      -- The loop condition leaves the loop at once when the loaded head is null.
      some (pool.goto thread (if page = 0 then .decrement i 0 else .loadNext i page))
  | .loadNext i page => some (pool.goto thread (.popCas i page (pool.next page)))
  | .popCas i page next =>
      if pool.localPools i = page ∧ weakFails = false then
        some { pool with
          localPools := Function.update pool.localPools i next
          pc := Function.update pool.pc thread (.decrement i page) }
      else
        some (pool.goto thread (.loadHead i))
  | .decrement i page =>
      some { pool with
        localRemainPages :=
          Function.update pool.localRemainPages i (pool.localRemainPages i - 1)
        pc := Function.update pool.pc thread
          (if page = 0 then cfg.richestLoop 0 0 0 false else .returnPage page) }
  | .richestTest i richest maxRemain hasPage =>
      if maxRemain < pool.localRemainPages i then
        some (pool.goto thread (.richestMax i))
      else
        some (pool.goto thread (cfg.richestLoop (i + 1) richest maxRemain hasPage))
  | .richestMax i =>
      some (pool.goto thread (cfg.richestLoop (i + 1) i (pool.localRemainPages i) true))
  | .returnPage page =>
      some { pool with
        pc := Function.update pool.pc thread .idle
        held :=
          if page = 0 then pool.held
          else Function.update pool.held thread (page :: pool.held thread) }
  | .pushLoad page =>
      some (pool.goto thread (.pushStore page (pool.localPools (cfg.poolIdx page))))
  | .pushStore page expected =>
      some { pool with
        next := Function.update pool.next page expected
        pc := Function.update pool.pc thread (.pushCas page expected) }
  | .pushCas page expected =>
      if pool.localPools (cfg.poolIdx page) = expected ∧ weakFails = false then
        some { pool with
          localPools := Function.update pool.localPools (cfg.poolIdx page) page
          pc := Function.update pool.pc thread (.increment page) }
      else
        some (pool.goto thread (.pushLoad page))
  | .increment page =>
      some { pool with
        localRemainPages :=
          Function.update pool.localRemainPages (cfg.poolIdx page)
            (pool.localRemainPages (cfg.poolIdx page) + 1)
        pc := Function.update pool.pc thread .idle }

/-- The thread is about to perform a `compare_exchange_weak`. -/
def Pc.isCas : Pc → Bool
  | .popCas .. => true
  | .pushCas .. => true
  | _ => false

/-- The transition function of a pool shared by its threads. -/
def step (cfg : Config Thread) : Transition (MemoryPool Thread) (Action Thread)
  | pool, .callAllocate thread =>
      if pool.pc thread = .idle then
        some (pool.goto thread (.loadHead (cfg.home thread)))
      else
        none
  | pool, .callDeallocate thread page =>
      if pool.pc thread = .idle then
        if page = 0 then
          -- `deallocate(nullptr)` returns before its first atomic access.
          some pool
        else if page ∈ pool.held thread then
          some { pool with
            pc := Function.update pool.pc thread (.pushLoad page)
            held := Function.update pool.held thread ((pool.held thread).erase page) }
        else
          none
      else
        none
  | pool, .tick thread => advance cfg pool thread false
  | pool, .spuriousFailure thread =>
      if (pool.pc thread).isCas then advance cfg pool thread true else none
  | pool, .overwrite thread page word =>
      if page ∈ pool.held thread then
        some { pool with next := Function.update pool.next page word }
      else
        none

/-- The steps by which threads look at or change a free list. -/
inductive Event (Thread : Type) where
  | loadsHead (thread : Thread) (pool : ℕ)
  | pops (thread : Thread) (pool : ℕ) (page next : Addr)
  | pushes (thread : Thread) (pool : ℕ) (page : Addr)
  deriving DecidableEq, Repr

/-- The event of an action, if it is the load of a head or a successful compare-and-swap. -/
def event (cfg : Config Thread) (pool : MemoryPool Thread) :
    Action Thread → Option (Event Thread)
  | .tick thread =>
      match pool.pc thread with
      | .loadHead i => some (.loadsHead thread i)
      | .popCas i page next =>
          if pool.localPools i = page then some (.pops thread i page next) else none
      | .pushCas page expected =>
          if pool.localPools (cfg.poolIdx page) = expected then
            some (.pushes thread (cfg.poolIdx page) page)
          else
            none
      | _ => none
  | _ => none

/-- The page that a call in progress has taken off a list or not yet put on one. -/
def Pc.inFlight : Pc → List Addr
  | .decrement _ page => if page = 0 then [] else [page]
  | .returnPage page => if page = 0 then [] else [page]
  | .pushLoad page => [page]
  | .pushStore page _ => [page]
  | .pushCas page _ => [page]
  | _ => []

section InFlight

variable (i richest : ℕ) (page word : Addr) (maxRemain : Counter) (hasPage : Bool)

@[simp] theorem inFlight_idle : Pc.idle.inFlight = [] := rfl
@[simp] theorem inFlight_outOfBounds : Pc.outOfBounds.inFlight = [] := rfl
@[simp] theorem inFlight_loadHead : (Pc.loadHead i).inFlight = [] := rfl
@[simp] theorem inFlight_loadNext : (Pc.loadNext i page).inFlight = [] := rfl
@[simp] theorem inFlight_popCas : (Pc.popCas i page word).inFlight = [] := rfl
@[simp] theorem inFlight_richestMax : (Pc.richestMax i).inFlight = [] := rfl
@[simp] theorem inFlight_pushLoad : (Pc.pushLoad page).inFlight = [page] := rfl
@[simp] theorem inFlight_pushStore : (Pc.pushStore page word).inFlight = [page] := rfl
@[simp] theorem inFlight_pushCas : (Pc.pushCas page word).inFlight = [page] := rfl
@[simp] theorem inFlight_increment : (Pc.increment page).inFlight = [] := rfl

@[simp]
theorem inFlight_decrement :
    (Pc.decrement i page).inFlight = if page = 0 then [] else [page] := rfl

@[simp]
theorem inFlight_returnPage :
    (Pc.returnPage page).inFlight = if page = 0 then [] else [page] := rfl

@[simp]
theorem inFlight_richestTest :
    (Pc.richestTest i richest maxRemain hasPage).inFlight = [] := rfl

end InFlight

/-- The pages a thread holds as a caller or inside its call in progress. -/
def owned (pool : MemoryPool Thread) (thread : Thread) : List Addr :=
  (pool.pc thread).inFlight ++ pool.held thread

end MemoryPool

end UserLevelMmap
