import UserLevelMmap.BufferManager.Workload

/-!
# Tests on arbitrary state words

The managers agree when no page is evicted or locked at the start. This file follows a test
from every start: a page can be fixed when it is not evicted, is marked or unlocked, and is
ready. Neither an access nor an `unfix` changes which pages can be fixed, so a test finishes
if and only if every page it draws can be fixed before it starts. Each of its rounds is then
the plain access followed by an `unfix`.
-/

namespace UserLevelMmap.BufferManager

/-- The first pass of `fix` reaches its compare-and-swap. -/
structure Manager.Fixable (manager : Manager) (mem : Memory) (pid : ℕ) : Prop where
  notEvicted : PageState.isEvicted ⟨mem (manager.fixWord pid)⟩ = false
  free : PageState.isMarked ⟨mem (manager.fixWord pid)⟩ = true ∨
    PageState.isUnlocked ⟨mem (manager.fixWord pid)⟩ = true
  ready : manager.ready mem pid = true

/-- The payload and the state words of a manager do not touch what makes a page fixable. -/
structure Manager.Apart (manager : Manager) (layout : Layout) : Prop
    extends manager.Serves layout where
  injective : ∀ pid other, manager.fixWord pid = manager.fixWord other → pid = other
  readyUnfix : ∀ mem pid other word,
    manager.ready (Function.update mem (manager.fixWord other) word) pid = manager.ready mem pid

/-- The page state of each page of a trace is unlocked. -/
def Manager.unfixAll (manager : Manager) (trace : List ℕ) (mem : Memory) : Memory :=
  trace.foldl (fun mem pid => manager.unfix pid (manager.vaddr pid) mem) mem

namespace PageState

variable (s : PageState)

theorem setUnlocked_relock : (⟨s.lockedState⟩ : PageState).setUnlocked = s.setUnlocked := by
  obtain ⟨word⟩ := s
  simp only [setUnlocked, lockedState, unsafeLock, mk.injEq]
  apply BitVec.eq_of_getLsbD_eq
  intro i bound
  simp only [BitVec.getLsbD_and, BitVec.getLsbD_or, BitVec.getLsbD_not, getLsbD_lockedBit]
  by_cases isLock : i = 2
  · simp [isLock]
  · simp [isLock]

@[simp]
theorem setUnlocked_setUnlocked : s.setUnlocked.setUnlocked = s.setUnlocked := by
  obtain ⟨word⟩ := s
  simp only [setUnlocked, BitVec.and_assoc, BitVec.and_self]

@[simp]
theorem isEvicted_setUnlocked : s.setUnlocked.isEvicted = s.isEvicted := by
  simp [isEvicted, setUnlocked]

@[simp]
theorem isUnlocked_setUnlocked : s.setUnlocked.isUnlocked = true := by
  simp [isUnlocked, setUnlocked]

end PageState

section

variable {manager : Manager} {layout : Layout} {mem : Memory} {pid : ℕ}

theorem fix_of_fixable (fixable : manager.Fixable mem pid) (passes : ℕ) :
    manager.fix pid (passes + 1) mem = .returned (manager.vaddr pid)
      (Function.update mem (manager.fixWord pid)
        (PageState.lockedState ⟨mem (manager.fixWord pid)⟩)) := by
  have free : (PageState.isMarked ⟨mem (manager.fixWord pid)⟩ ||
      PageState.isUnlocked ⟨mem (manager.fixWord pid)⟩) = true := by
    simpa using fixable.free
  have loaded : manager.load mem pid = .attempt ⟨mem (manager.fixWord pid)⟩ := by
    simp [Manager.load, fixable.notEvicted, free, fixable.ready]
  simp only [Manager.fix, loaded, compareAndSwap, PageState.state, if_true]

theorem fix_of_evicted (evicted : PageState.isEvicted ⟨mem (manager.fixWord pid)⟩ = true)
    (passes : ℕ) : manager.fix pid (passes + 1) mem = .assertionFailed := by
  have loaded : manager.load mem pid = .abort := by simp [Manager.load, evicted]
  simp only [Manager.fix, loaded]

/-- The loop of `fix` changes nothing before its compare-and-swap, so it passes for ever. -/
theorem fix_of_not_fixable
    (notEvicted : PageState.isEvicted ⟨mem (manager.fixWord pid)⟩ = false)
    (not_fixable : ¬ manager.Fixable mem pid) (passes : ℕ) :
    manager.fix pid passes mem = .spinning := by
  have loaded : manager.load mem pid = .again := by
    have closed : ((PageState.isMarked ⟨mem (manager.fixWord pid)⟩ ||
        PageState.isUnlocked ⟨mem (manager.fixWord pid)⟩) && manager.ready mem pid) = false := by
      by_contra opened
      simp only [Bool.not_eq_false, Bool.and_eq_true, Bool.or_eq_true] at opened
      exact not_fixable ⟨notEvicted, opened.1, opened.2⟩
    simp [Manager.load, notEvicted, closed]
  induction passes with
  | zero => rfl
  | succ passes ih => simp only [Manager.fix, loaded, ih]

/-- One round on a page that can be fixed: the plain access, and the page is unlocked. -/
theorem unfix_access_of_apart (test : Test) {data : ℕ}
    (vaddr : manager.vaddr pid = data) (apart : manager.fixWord pid ≠ data + 16) :
    let locked := Test.access
      { test with
        mem := Function.update test.mem (manager.fixWord pid)
          (PageState.lockedState ⟨test.mem (manager.fixWord pid)⟩) }
      data
    { locked with mem := manager.unfix pid data locked.mem } =
      { test.access data with mem := manager.unfix pid data (test.access data).mem } := by
  have word : manager.unfixWord pid data = manager.fixWord pid := by
    rw [← vaddr]
    exact manager.unfix_vaddr pid
  have unlocked := PageState.setUnlocked_relock ⟨test.mem (manager.fixWord pid)⟩
  simp only [Test.access, Manager.unfix, word, Function.update_of_ne apart,
    Function.update_of_ne apart.symm, Function.update_self, unlocked, Test.mk.injEq, true_and]
  rw [Function.update_comm apart, Function.update_idem, Function.update_comm apart.symm]

theorem unfix_eq (manager : Manager) (mem : Memory) (pid : ℕ) :
    manager.unfix pid (manager.vaddr pid) mem = Function.update mem (manager.fixWord pid)
      (PageState.setUnlocked ⟨mem (manager.fixWord pid)⟩).all := by
  rw [Manager.unfix, manager.unfix_vaddr]

/-- An `unfix` and the access to a payload word can be exchanged. -/
theorem access_unfix {data : ℕ} (apart : manager.fixWord pid ≠ data + 16) (test : Test) :
    Test.access { test with mem := manager.unfix pid (manager.vaddr pid) test.mem } data =
      { test.access data with
        mem := manager.unfix pid (manager.vaddr pid) (test.access data).mem } := by
  simp only [unfix_eq, Test.access, Function.update_of_ne apart, Function.update_of_ne apart.symm]
  rw [Function.update_comm apart]

theorem plainTest_unfix (serves : manager.Serves layout) (belowPid : pid < numPages)
    {trace : List ℕ} (below : ∀ other ∈ trace, other < numPages) (test : Test) :
    plainTest layout trace { test with mem := manager.unfix pid (manager.vaddr pid) test.mem } =
      { plainTest layout trace test with
        mem := manager.unfix pid (manager.vaddr pid) (plainTest layout trace test).mem } := by
  induction trace generalizing test with
  | nil => rfl
  | cons other rest ih =>
      have belowRest : ∀ later ∈ rest, later < numPages :=
        fun later mem => below later (List.mem_cons_of_mem _ mem)
      have apart := serves.fixWord pid belowPid other (below other List.mem_cons_self)
      have exchanged := ih belowRest (test.access (layout.page other))
      rw [← access_unfix apart] at exchanged
      exact exchanged

theorem fixable_congr {mem' : Memory}
    (word : mem' (manager.fixWord pid) = mem (manager.fixWord pid))
    (ready : manager.ready mem' pid = manager.ready mem pid) :
    manager.Fixable mem' pid ↔ manager.Fixable mem pid := by
  constructor
  · rintro ⟨notEvicted, free, isReady⟩
    rw [word] at notEvicted free
    exact ⟨notEvicted, free, ready ▸ isReady⟩
  · rintro ⟨notEvicted, free, isReady⟩
    rw [← word] at notEvicted free
    exact ⟨notEvicted, free, ready.trans isReady⟩

/-- What a page needs to be fixable is in words that no access touches. -/
theorem fixable_access_iff (serves : manager.Serves layout) (belowPid : pid < numPages)
    {other : ℕ} (belowOther : other < numPages) (test : Test) :
    manager.Fixable (test.access (layout.page other)).mem pid ↔ manager.Fixable test.mem pid := by
  apply fixable_congr
  · exact Function.update_of_ne (serves.fixWord pid belowPid other belowOther) _ _
  · exact serves.ready pid belowPid other belowOther _ _

/-- An `unfix` only unlocks: a fixable page stays fixable, and no other page becomes so. -/
theorem fixable_unfix_iff (apart : manager.Apart layout) {other : ℕ}
    (fixable : manager.Fixable mem other) :
    manager.Fixable (manager.unfix other (manager.vaddr other) mem) pid ↔
      manager.Fixable mem pid := by
  rw [unfix_eq]
  have ready := apart.readyUnfix mem pid other
    (PageState.setUnlocked ⟨mem (manager.fixWord other)⟩).all
  by_cases same : pid = other
  · subst same
    refine ⟨fun _ => fixable, fun _ => ⟨?_, .inr ?_, ready.trans fixable.ready⟩⟩
    · rw [Function.update_self]
      exact (PageState.isEvicted_setUnlocked _).trans fixable.notEvicted
    · rw [Function.update_self]
      exact PageState.isUnlocked_setUnlocked _
  · have different : manager.fixWord pid ≠ manager.fixWord other :=
      fun equal => same (apart.injective pid other equal)
    exact fixable_congr (Function.update_of_ne different _ _) ready

/-- The memory and the accumulator after a round on a fixable page. -/
def Manager.round (manager : Manager) (layout : Layout) (test : Test) (pid : ℕ) : Test :=
  { test.access (layout.page pid) with
    mem := manager.unfix pid (manager.vaddr pid) (test.access (layout.page pid)).mem }

theorem round_fixWord (apart : manager.Apart layout) (belowPid : pid < numPages) {other : ℕ}
    (belowOther : other < numPages) (different : pid ≠ other) (test : Test) :
    (manager.round layout test other).mem (manager.fixWord pid) =
      test.mem (manager.fixWord pid) := by
  simp only [Manager.round, unfix_eq]
  rw [Function.update_of_ne (fun equal => different (apart.injective pid other equal))]
  exact Function.update_of_ne (apart.fixWord pid belowPid other belowOther) _ _

theorem fixable_round_iff (apart : manager.Apart layout) (belowPid : pid < numPages) {other : ℕ}
    (belowOther : other < numPages) {test : Test} (fixable : manager.Fixable test.mem other) :
    manager.Fixable (manager.round layout test other).mem pid ↔ manager.Fixable test.mem pid := by
  have accessed := (fixable_access_iff apart.toServes belowOther belowOther test).mpr fixable
  exact (fixable_unfix_iff apart accessed).trans
    (fixable_access_iff apart.toServes belowPid belowOther test)

theorem performTest_cons (serves : manager.Serves layout) (belowPid : pid < numPages)
    {test : Test} (fixable : manager.Fixable test.mem pid) (passes : ℕ) (rest : List ℕ) :
    manager.performTest (passes + 1) (pid :: rest) test =
      manager.performTest (passes + 1) rest (manager.round layout test pid) := by
  have vaddr := serves.vaddr pid belowPid
  have round := unfix_access_of_apart test vaddr (serves.fixWord pid belowPid pid belowPid)
  simp only [Manager.performTest, fix_of_fixable fixable, vaddr]
  rw [round, Manager.round, vaddr]

/-- A test finishes when every page drawn can be fixed at its start. It leaves what the plain
workload leaves, with the pages drawn unlocked. -/
theorem performTest_of_fixable (apart : manager.Apart layout) (passes : ℕ) {trace : List ℕ}
    (below : ∀ pid ∈ trace, pid < numPages) {test : Test}
    (fixable : ∀ pid ∈ trace, manager.Fixable test.mem pid) :
    manager.performTest (passes + 1) trace test = .finished
      { plainTest layout trace test with
        mem := manager.unfixAll trace (plainTest layout trace test).mem } := by
  induction trace generalizing test with
  | nil => rfl
  | cons pid rest ih =>
      have belowPid := below pid List.mem_cons_self
      have fixablePid := fixable pid List.mem_cons_self
      have belowRest : ∀ other ∈ rest, other < numPages :=
        fun other mem => below other (List.mem_cons_of_mem _ mem)
      have fixableRest : ∀ other ∈ rest,
          manager.Fixable (manager.round layout test pid).mem other := by
        intro other mem
        rw [fixable_round_iff apart (belowRest other mem) belowPid fixablePid]
        exact fixable other (List.mem_cons_of_mem _ mem)
      rw [performTest_cons apart.toServes belowPid fixablePid, ih belowRest fixableRest,
        Manager.round, plainTest_unfix apart.toServes belowPid belowRest]
      rfl

/-- A test stops at the first page drawn that cannot be fixed. -/
theorem performTest_of_not_fixable (apart : manager.Apart layout) (passes : ℕ)
    {before rest : List ℕ} (below : ∀ other ∈ before ++ pid :: rest, other < numPages)
    {test : Test} (fixable : ∀ other ∈ before, manager.Fixable test.mem other)
    (not_fixable : ¬ manager.Fixable test.mem pid) :
    manager.performTest (passes + 1) (before ++ pid :: rest) test =
      if PageState.isEvicted ⟨test.mem (manager.fixWord pid)⟩ then .assertionFailed
      else .spinning := by
  induction before generalizing test with
  | nil =>
      by_cases evicted : PageState.isEvicted ⟨test.mem (manager.fixWord pid)⟩ = true
      · rw [if_pos evicted]
        simp only [List.nil_append, Manager.performTest, fix_of_evicted evicted]
      · rw [if_neg evicted]
        rw [Bool.not_eq_true] at evicted
        simp only [List.nil_append, Manager.performTest, fix_of_not_fixable evicted not_fixable]
  | cons other before ih =>
      have belowOther := below other List.mem_cons_self
      have belowRest : ∀ later ∈ before ++ pid :: rest, later < numPages :=
        fun later mem => below later (List.mem_cons_of_mem _ mem)
      have belowPid : pid < numPages := belowRest pid (by simp)
      have fixableOther := fixable other List.mem_cons_self
      have kept : ∀ {later : ℕ}, later < numPages →
          (manager.Fixable (manager.round layout test other).mem later ↔
            manager.Fixable test.mem later) :=
        fun belowLater => fixable_round_iff apart belowLater belowOther fixableOther
      have different : pid ≠ other := fun same => not_fixable (same ▸ fixableOther)
      rw [List.cons_append, performTest_cons apart.toServes belowOther fixableOther,
        ih belowRest, round_fixWord apart belowPid belowOther different]
      · intro later mem
        have belowLater : later < numPages := belowRest later (List.mem_append_left _ mem)
        exact (kept belowLater).mpr (fixable later (List.mem_cons_of_mem _ mem))
      · exact fun now => not_fixable ((kept belowPid).mp now)

theorem unfixAll_cons (manager : Manager) (pid : ℕ) (rest : List ℕ) (mem : Memory) :
    manager.unfixAll (pid :: rest) mem =
      manager.unfixAll rest (manager.unfix pid (manager.vaddr pid) mem) := rfl

theorem unfixAll_of_outside {trace : List ℕ} {place : ℕ}
    (outside : ∀ pid ∈ trace, place ≠ manager.fixWord pid) (mem : Memory) :
    manager.unfixAll trace mem place = mem place := by
  induction trace generalizing mem with
  | nil => rfl
  | cons pid rest ih =>
      have outsideRest : ∀ other ∈ rest, place ≠ manager.fixWord other :=
        fun other other_mem => outside other (List.mem_cons_of_mem _ other_mem)
      rw [unfixAll_cons, ih outsideRest, unfix_eq,
        Function.update_of_ne (outside pid List.mem_cons_self)]

theorem unfixAll_fixWord (apart : manager.Apart layout) (trace : List ℕ) (mem : Memory) :
    manager.unfixAll trace mem (manager.fixWord pid) =
      if pid ∈ trace then (PageState.setUnlocked ⟨mem (manager.fixWord pid)⟩).all
      else mem (manager.fixWord pid) := by
  induction trace generalizing mem with
  | nil => rfl
  | cons other rest ih =>
      rw [unfixAll_cons, ih, unfix_eq]
      by_cases same : pid = other
      · -- The page is unlocked here; drawing it again changes nothing more.
        subst same
        rw [Function.update_self, if_pos List.mem_cons_self]
        split_ifs
        · exact congrArg PageState.all (PageState.setUnlocked_setUnlocked _)
        · rfl
      · have different : manager.fixWord pid ≠ manager.fixWord other :=
          fun equal => same (apart.injective pid other equal)
        simp [Function.update_of_ne different, same]

theorem Manager.Resting.plainTest {test : Test} (resting : manager.Resting test.mem)
    (serves : manager.Serves layout) {trace : List ℕ} (below : ∀ pid ∈ trace, pid < numPages) :
    manager.Resting (plainTest layout trace test).mem := by
  induction trace generalizing test with
  | nil => exact resting
  | cons pid rest ih =>
      have belowRest : ∀ other ∈ rest, other < numPages :=
        fun other mem => below other (List.mem_cons_of_mem _ mem)
      exact ih (resting.access serves (below pid List.mem_cons_self) test.acc) belowRest

theorem neovmcache_apart : (neovmcache layout).Apart layout where
  toServes := neovmcache_serves
  injective pid other equal := by
    simp only [neovmcache, pageSize] at equal
    omega
  readyUnfix mem pid other word := by
    have apart : layout.virtMem + pid * pageSize + 8 ≠ layout.virtMem + other * pageSize := by
      simp only [pageSize]
      omega
    simp only [neovmcache, Function.update_of_ne apart]

end

end UserLevelMmap.BufferManager
