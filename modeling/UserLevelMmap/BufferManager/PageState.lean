import Mathlib.Algebra.Order.Ring.Int
import Mathlib.Data.Nat.Notation
import Mathlib.Logic.Function.Basic

/-!
# Page states and the three buffer managers

The experiment `src/experiments/neovmcache_vs_vmcache.cc` compares three ways to
fix a page: with the state word in a padded array (`vmcache`), in a dense array
beside a hash table (`hash`), and in the first word of the page itself
(`neovmcache`). The loops of the three `fix` functions differ in the address of
the state word and in one extra test, and so do the three `unfix` functions in
the address; both are fields of a `Manager` here.

Memory is a function from byte addresses to 64-bit words, of which the experiment
uses those at multiples of eight.
-/

namespace UserLevelMmap.BufferManager

/-- `PageState`: bit `0` is `evicted`, bit `1` is `marked`, bit `2` is `locked`. -/
structure PageState where
  all : BitVec 64
  deriving DecidableEq, Repr

namespace PageState

def isEvicted (s : PageState) : Bool :=
  s.all.getLsbD 0

def isMarked (s : PageState) : Bool :=
  s.all.getLsbD 1

def isUnlocked (s : PageState) : Bool :=
  !s.all.getLsbD 2

/-- `unsafe_lock`: the bit-field store of `1` to `locked`. -/
def unsafeLock (s : PageState) : PageState :=
  ⟨s.all ||| 4#64⟩

/-- `setUnlocked`: the bit-field store of `0` to `locked`. -/
def setUnlocked (s : PageState) : PageState :=
  ⟨s.all &&& ~~~4#64⟩

def lockedState (s : PageState) : BitVec 64 :=
  s.unsafeLock.all

def state (s : PageState) : BitVec 64 :=
  s.all

/-- A word that can be found where nobody has locked the page. -/
structure Startable (s : PageState) : Prop where
  notEvicted : s.isEvicted = false
  unlocked : s.isUnlocked = true

theorem getLsbD_lockedBit (i : ℕ) : (4#64).getLsbD i = decide (i = 2) := by
  have isPower : 4#64 = BitVec.twoPow 64 2 := by decide
  rw [isPower, BitVec.getLsbD_twoPow]
  by_cases isLock : i = 2
  · simp [isLock]
  · simp [isLock, Ne.symm isLock]

variable (s : PageState)

@[simp]
theorem isEvicted_lockedState : (⟨s.lockedState⟩ : PageState).isEvicted = s.isEvicted := by
  simp [isEvicted, lockedState, unsafeLock]

@[simp]
theorem isMarked_lockedState : (⟨s.lockedState⟩ : PageState).isMarked = s.isMarked := by
  simp [isMarked, lockedState, unsafeLock]

@[simp]
theorem isUnlocked_lockedState : (⟨s.lockedState⟩ : PageState).isUnlocked = false := by
  simp [isUnlocked, lockedState, unsafeLock]

theorem setUnlocked_lockedState (unlocked : s.isUnlocked = true) :
    (⟨s.lockedState⟩ : PageState).setUnlocked = s := by
  obtain ⟨word⟩ := s
  simp only [isUnlocked, Bool.not_eq_true'] at unlocked
  simp only [setUnlocked, lockedState, unsafeLock, mk.injEq]
  apply BitVec.eq_of_getLsbD_eq
  intro i bound
  simp only [BitVec.getLsbD_and, BitVec.getLsbD_or, BitVec.getLsbD_not, getLsbD_lockedBit]
  by_cases isLock : i = 2
  · simpa [isLock] using unlocked
  · simp [isLock, bound]

end PageState

/-- `PageSize`. -/
def pageSize : ℕ := 4096

/-- `sizeof(PageStatePadding)`. -/
def pageStatePadding : ℕ := 5048

/-- The words of the process, by byte address. -/
abbrev Memory := ℕ → BitVec 64

/-- The global pointers of the experiment and its hash table. -/
structure Layout where
  state : ℕ
  bufTags : ℕ
  virtMem : ℕ
  bufTable : ℕ → ℕ

/-- A pair of `fix` and `unfix` functions. -/
structure Manager where
  /-- The word that `fix` loads and swaps. -/
  fixWord : ℕ → ℕ
  /-- The test beside the state word. -/
  ready : Memory → ℕ → Bool
  /-- What `fix` returns. -/
  vaddr : ℕ → ℕ
  /-- The word that `unfix(pid, vaddr)` unlocks. -/
  unfixWord : ℕ → ℕ → ℕ
  unfix_vaddr : ∀ pid, unfixWord pid (vaddr pid) = fixWord pid
  ready_write : ∀ mem pid word,
    ready (Function.update mem (fixWord pid) word) pid = ready mem pid

/-- `vmcache_fix` and `vmcache_unfix`. -/
def vmcache (layout : Layout) : Manager where
  fixWord pid := layout.state + pid * pageStatePadding
  ready _ _ := true
  vaddr pid := layout.virtMem + pid * pageSize
  unfixWord pid _ := layout.state + pid * pageStatePadding
  unfix_vaddr _ := rfl
  ready_write _ _ _ := rfl

/-- `hash_fix` and `hash_unfix`. -/
def hash (layout : Layout) : Manager where
  fixWord pid := layout.bufTags + pid * 8
  ready _ _ := true
  vaddr pid := layout.bufTable pid
  unfixWord pid _ := layout.bufTags + pid * 8
  unfix_vaddr _ := rfl
  ready_write _ _ _ := rfl

/-- `neovmcache_fix` and `neovmcache_unfix`; the loop also waits for `data[1] == 0`. -/
def neovmcache (layout : Layout) : Manager where
  fixWord pid := layout.virtMem + pid * pageSize
  ready mem pid := mem (layout.virtMem + pid * pageSize + 8) = 0
  vaddr pid := layout.virtMem + pid * pageSize
  unfixWord _ vaddr := vaddr
  unfix_vaddr _ := rfl
  ready_write mem pid word := by simp

/-- What the loop of `fix` does with the word it has loaded. -/
inductive Pass where
  /-- `assert(false)` in the branch of an evicted page. -/
  | abort
  | attempt (s : PageState)
  | again
  deriving DecidableEq, Repr

/-- One pass through the loop of `fix`, up to its compare-and-swap. -/
def Manager.load (manager : Manager) (mem : Memory) (pid : ℕ) : Pass :=
  let s : PageState := ⟨mem (manager.fixWord pid)⟩
  if s.isEvicted then .abort
  else if (s.isMarked || s.isUnlocked) && manager.ready mem pid then .attempt s
  else .again

/-- `compareAndSwap`, with the memory after it when it succeeds. -/
def compareAndSwap (mem : Memory) (value : ℕ) (expected desired : BitVec 64) : Option Memory :=
  if mem value = expected then some (Function.update mem value desired) else none

end UserLevelMmap.BufferManager
