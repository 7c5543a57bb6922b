import UserLevelMmap.BufferManager.Lock

/-!
# The workload of the experiment

`performTest` fixes one page after the other, adds a word of the page to the
accumulator, writes the accumulator back and unfixes the page. This file runs it
with each of the three managers in one thread and compares it with the plain
workload, which reads and writes the pages without any manager.

Each `unfix` restores the word that its `fix` has locked, and no payload word is a
state word; so one round of `performTest` is one plain access, whichever manager
keeps the pages and wherever it keeps their state.
-/

namespace UserLevelMmap.BufferManager

/-- `NumPages`. -/
def numPages : ℕ := 2000

/-! ## The loop of the experiment -/

/-- How `fix` ends when its loop may be passed through a given number of times. -/
inductive FixResult where
  | returned (vaddr : ℕ) (mem : Memory)
  | assertionFailed
  | spinning

/-- `fix`, with a bound on the passes through its loop. -/
def Manager.fix (manager : Manager) (pid : ℕ) : ℕ → Memory → FixResult
  | 0, _ => .spinning
  | passes + 1, mem =>
      match manager.load mem pid with
      | .abort => .assertionFailed
      | .attempt s =>
          match compareAndSwap mem (manager.fixWord pid) s.state s.lockedState with
          | some mem => .returned (manager.vaddr pid) mem
          | none => manager.fix pid passes mem
      | .again => manager.fix pid passes mem

/-- `unfix`. -/
def Manager.unfix (manager : Manager) (pid vaddr : ℕ) (mem : Memory) : Memory :=
  let word := manager.unfixWord pid vaddr
  Function.update mem word (PageState.setUnlocked ⟨mem word⟩).all

/-- The accumulator and the memory between two rounds of `performTest`. -/
structure Test where
  acc : BitVec 64
  mem : Memory

/-- `acc += data[2]; data[2] = acc`. -/
def Test.access (test : Test) (data : ℕ) : Test :=
  let acc := test.acc + test.mem (data + 16)
  { acc := acc, mem := Function.update test.mem (data + 16) acc }

/-- How `performTest` ends. -/
inductive TestResult where
  | finished (test : Test)
  | assertionFailed
  | spinning

/-- The loop of `performTest` over a sequence of page ids. -/
def Manager.performTest (manager : Manager) (passes : ℕ) : List ℕ → Test → TestResult
  | [], test => .finished test
  | pid :: rest, test =>
      match manager.fix pid passes test.mem with
      | .returned vaddr mem =>
          let test := Test.access { test with mem := mem } vaddr
          manager.performTest passes rest
            { test with mem := manager.unfix pid vaddr test.mem }
      | .assertionFailed => .assertionFailed
      | .spinning => .spinning

/-- `LinearCongruentialGenerator::next` with the default parameters. -/
def lcgNext (current : ℕ) : ℕ :=
  (1664525 * current + 1013904223) % 4294967296

/-- The page ids that `performTest` draws from a generator in the given state. -/
def pageIds : ℕ → ℕ → List ℕ
  | 0, _ => []
  | count + 1, current =>
      lcgNext current % numPages :: pageIds count (lcgNext current)

/-! ## The plain workload -/

/-- The data page of a page id. -/
def Layout.page (layout : Layout) (pid : ℕ) : ℕ :=
  layout.virtMem + pid * pageSize

/-- The workload on pages that need not be fixed. -/
def plainTest (layout : Layout) (trace : List ℕ) (test : Test) : Test :=
  trace.foldl (fun test pid => test.access (layout.page pid)) test

/-- What `mmap` promises about the mappings and `main` about the hash table: the state
words are outside of the data pages, and each page is found at its place. -/
structure Layout.Separated (layout : Layout) : Prop where
  state : layout.state + numPages * pageStatePadding ≤ layout.virtMem ∨
    layout.virtMem + numPages * pageSize ≤ layout.state
  bufTags : layout.bufTags + numPages * 8 ≤ layout.virtMem ∨
    layout.virtMem + numPages * pageSize ≤ layout.bufTags
  bufTable : ∀ pid < numPages, layout.bufTable pid = layout.page pid

/-- The manager returns the data pages and keeps its words off their payload. -/
structure Manager.Serves (manager : Manager) (layout : Layout) : Prop where
  vaddr : ∀ pid < numPages, manager.vaddr pid = layout.page pid
  fixWord : ∀ pid < numPages, ∀ other < numPages,
    manager.fixWord pid ≠ layout.page other + 16
  ready : ∀ pid < numPages, ∀ other < numPages, ∀ mem word,
    manager.ready (Function.update mem (layout.page other + 16) word) pid = manager.ready mem pid

/-- No page is fixed, and each can be. -/
structure Manager.Resting (manager : Manager) (mem : Memory) : Prop where
  startable : ∀ pid < numPages, PageState.Startable ⟨mem (manager.fixWord pid)⟩
  ready : ∀ pid < numPages, manager.ready mem pid = true

section

variable {manager : Manager} {layout : Layout} {pid : ℕ}

theorem fix_of_startable {mem : Memory}
    (startable : PageState.Startable ⟨mem (manager.fixWord pid)⟩)
    (ready : manager.ready mem pid = true) (passes : ℕ) :
    manager.fix pid (passes + 1) mem = .returned (manager.vaddr pid)
      (Function.update mem (manager.fixWord pid)
        (PageState.lockedState ⟨mem (manager.fixWord pid)⟩)) := by
  have loaded : manager.load mem pid = .attempt ⟨mem (manager.fixWord pid)⟩ := by
    simp [Manager.load, startable.notEvicted, startable.unlocked, ready]
  simp only [Manager.fix, loaded, compareAndSwap, PageState.state, if_true]

/-- The access and the `unfix` of one round leave what the plain access leaves. -/
theorem unfix_access {test : Test} {data : ℕ}
    (startable : PageState.Startable ⟨test.mem (manager.fixWord pid)⟩)
    (vaddr : manager.vaddr pid = data) (apart : manager.fixWord pid ≠ data + 16) :
    let locked := Test.access
      { test with
        mem := Function.update test.mem (manager.fixWord pid)
          (PageState.lockedState ⟨test.mem (manager.fixWord pid)⟩) }
      data
    { locked with mem := manager.unfix pid data locked.mem } = test.access data := by
  have word : manager.unfixWord pid data = manager.fixWord pid := by
    rw [← vaddr]
    exact manager.unfix_vaddr pid
  have unlocked := PageState.setUnlocked_lockedState _ startable.unlocked
  simp only [Test.access, Manager.unfix, word, Function.update_of_ne apart,
    Function.update_of_ne apart.symm, Function.update_self, unlocked, Test.mk.injEq, true_and]
  rw [Function.update_comm apart, Function.update_idem, Function.update_comm apart.symm,
    Function.update_eq_self]

theorem Manager.Resting.access {mem : Memory} (resting : manager.Resting mem)
    (serves : manager.Serves layout) {pid : ℕ} (below : pid < numPages) (acc : BitVec 64) :
    manager.Resting (Test.access ⟨acc, mem⟩ (layout.page pid)).mem where
  startable other belowOther := by
    simp only [Test.access]
    rw [Function.update_of_ne (serves.fixWord other belowOther pid below)]
    exact resting.startable other belowOther
  ready other belowOther := by
    simp only [Test.access]
    rw [serves.ready other belowOther pid below]
    exact resting.ready other belowOther

/-- A manager that rests between the rounds does the plain workload, and each of its
`fix` calls returns on the first pass. -/
theorem performTest_eq (serves : manager.Serves layout) (passes : ℕ) {trace : List ℕ}
    (below : ∀ pid ∈ trace, pid < numPages) {test : Test} (resting : manager.Resting test.mem) :
    manager.performTest (passes + 1) trace test = .finished (plainTest layout trace test) := by
  induction trace generalizing test with
  | nil => rfl
  | cons pid rest ih =>
      have belowPid := below pid List.mem_cons_self
      have belowRest : ∀ other ∈ rest, other < numPages :=
        fun other mem => below other (List.mem_cons_of_mem _ mem)
      have startable := resting.startable pid belowPid
      have vaddr := serves.vaddr pid belowPid
      have round := unfix_access startable vaddr (serves.fixWord pid belowPid pid belowPid)
      simp only [Manager.performTest, vaddr,
        fix_of_startable startable (resting.ready pid belowPid)]
      rw [round]
      exact ih belowRest (resting.access serves belowPid test.acc)

theorem plainTest_of_outside {trace : List ℕ} (below : ∀ pid ∈ trace, pid < numPages)
    {place : ℕ} (outside : ∀ pid < numPages, place ≠ layout.page pid + 16) (test : Test) :
    (plainTest layout trace test).mem place = test.mem place := by
  induction trace generalizing test with
  | nil => rfl
  | cons pid rest ih =>
      have belowRest : ∀ other ∈ rest, other < numPages :=
        fun other mem => below other (List.mem_cons_of_mem _ mem)
      have untouched : (test.access (layout.page pid)).mem place = test.mem place :=
        Function.update_of_ne (outside pid (below pid List.mem_cons_self)) _ _
      rw [← untouched]
      exact ih belowRest (test.access (layout.page pid))

end

/-! ## The three managers -/

section

variable {layout : Layout}

theorem vmcache_serves (separated : layout.Separated) : (vmcache layout).Serves layout where
  vaddr pid below := rfl
  fixWord pid below other belowOther := by
    have apart := separated.state
    simp only [vmcache, Layout.page, numPages, pageSize, pageStatePadding] at *
    omega
  ready pid below other belowOther mem word := rfl

theorem hash_serves (separated : layout.Separated) : (hash layout).Serves layout where
  vaddr pid below := separated.bufTable pid below
  fixWord pid below other belowOther := by
    have apart := separated.bufTags
    simp only [hash, Layout.page, numPages, pageSize] at *
    omega
  ready pid below other belowOther mem word := rfl

/-- The state and the second word of a page are in front of the word that is accessed. -/
theorem neovmcache_serves : (neovmcache layout).Serves layout where
  vaddr pid below := rfl
  fixWord pid below other belowOther := by
    simp only [neovmcache, Layout.page, pageSize]
    omega
  ready pid below other belowOther mem word := by
    have apart : layout.virtMem + pid * pageSize + 8 ≠ layout.page other + 16 := by
      simp only [Layout.page, pageSize]
      omega
    simp only [neovmcache, Function.update_of_ne apart]

/-- No state word has its evicted or its locked bit set, and the second word of every data
page is `0`. -/
structure StartWords (layout : Layout) (mem : Memory) : Prop where
  state : ∀ pid < numPages, PageState.Startable ⟨mem (layout.state + pid * pageStatePadding)⟩
  bufTags : ∀ pid < numPages, PageState.Startable ⟨mem (layout.bufTags + pid * 8)⟩
  header : ∀ pid < numPages, PageState.Startable ⟨mem (layout.page pid)⟩
  second : ∀ pid < numPages, mem (layout.page pid + 8) = 0

theorem hash_performTest (separated : layout.Separated) {test : Test}
    (words : StartWords layout test.mem) (passes : ℕ) {trace : List ℕ}
    (below : ∀ pid ∈ trace, pid < numPages) :
    (hash layout).performTest (passes + 1) trace test =
      .finished (plainTest layout trace test) := by
  apply performTest_eq (hash_serves separated) passes below
  exact ⟨words.bufTags, fun _ _ => rfl⟩

theorem vmcache_performTest (separated : layout.Separated) {test : Test}
    (words : StartWords layout test.mem) (passes : ℕ) {trace : List ℕ}
    (below : ∀ pid ∈ trace, pid < numPages) :
    (vmcache layout).performTest (passes + 1) trace test =
      .finished (plainTest layout trace test) := by
  apply performTest_eq (vmcache_serves separated) passes below
  exact ⟨words.state, fun _ _ => rfl⟩

theorem neovmcache_performTest {test : Test} (words : StartWords layout test.mem) (passes : ℕ)
    {trace : List ℕ} (below : ∀ pid ∈ trace, pid < numPages) :
    (neovmcache layout).performTest (passes + 1) trace test =
      .finished (plainTest layout trace test) := by
  apply performTest_eq neovmcache_serves passes below
  exact ⟨words.header, fun pid belowPid => decide_eq_true (words.second pid belowPid)⟩

/-- The plain workload leaves all state words as they are. -/
theorem plainTest_keeps_words (separated : layout.Separated) {trace : List ℕ}
    (below : ∀ pid ∈ trace, pid < numPages) (test : Test) {pid : ℕ} (belowPid : pid < numPages) :
    let final := plainTest layout trace test
    final.mem (layout.state + pid * pageStatePadding) =
        test.mem (layout.state + pid * pageStatePadding) ∧
      final.mem (layout.bufTags + pid * 8) = test.mem (layout.bufTags + pid * 8) ∧
      final.mem (layout.page pid) = test.mem (layout.page pid) := by
  have serves : (neovmcache layout).Serves layout := neovmcache_serves
  refine ⟨?_, ?_, ?_⟩
  · exact plainTest_of_outside below ((vmcache_serves separated).fixWord pid belowPid) test
  · exact plainTest_of_outside below ((hash_serves separated).fixWord pid belowPid) test
  · exact plainTest_of_outside below (serves.fixWord pid belowPid) test

theorem StartWords.plainTest {test : Test} (words : StartWords layout test.mem)
    (separated : layout.Separated) {trace : List ℕ} (below : ∀ pid ∈ trace, pid < numPages) :
    StartWords layout (plainTest layout trace test).mem where
  state pid belowPid := by
    rw [(plainTest_keeps_words separated below test belowPid).1]
    exact words.state pid belowPid
  bufTags pid belowPid := by
    rw [(plainTest_keeps_words separated below test belowPid).2.1]
    exact words.bufTags pid belowPid
  header pid belowPid := by
    rw [(plainTest_keeps_words separated below test belowPid).2.2]
    exact words.header pid belowPid
  second pid belowPid := by
    rw [plainTest_of_outside below ?_ test]
    · exact words.second pid belowPid
    · intro other belowOther
      simp only [Layout.page, pageSize]
      omega

/-- On every trace of page ids the three managers finish with each `fix` returning on the
first pass through its loop, with the same accumulator and the same memory, in which all
state words are those of the start. -/
theorem managers_agree (separated : layout.Separated) {mem : Memory}
    (words : StartWords layout mem) (acc : BitVec 64) {trace : List ℕ}
    (below : ∀ pid ∈ trace, pid < numPages) :
    ∃ final : Test,
      (∀ passes, 1 ≤ passes →
        (hash layout).performTest passes trace ⟨acc, mem⟩ = .finished final ∧
        (vmcache layout).performTest passes trace ⟨acc, mem⟩ = .finished final ∧
        (neovmcache layout).performTest passes trace ⟨acc, mem⟩ = .finished final) ∧
      ∀ pid < numPages,
        final.mem (layout.state + pid * pageStatePadding) =
          mem (layout.state + pid * pageStatePadding) ∧
        final.mem (layout.bufTags + pid * 8) = mem (layout.bufTags + pid * 8) ∧
        final.mem (layout.page pid) = mem (layout.page pid) := by
  refine ⟨plainTest layout trace ⟨acc, mem⟩, ?_, ?_⟩
  · intro passes positive
    rcases Nat.exists_eq_add_of_le' positive with ⟨further, rfl⟩
    refine ⟨?_, ?_, ?_⟩
    · exact hash_performTest separated words further below
    · exact vmcache_performTest separated words further below
    · exact neovmcache_performTest words further below
  · intro pid belowPid
    exact plainTest_keeps_words separated below ⟨acc, mem⟩ belowPid

end

theorem apart_separated : apart.Separated where
  state := by decide
  bufTags := by decide
  bufTable pid below := rfl

/-- All words are `0` but the accessed word of page `3`. -/
def sevenOnPageThree : Memory :=
  fun place => if place = apart.page 3 + 16 then 7 else 0

theorem sevenOnPageThree_words : StartWords apart sevenOnPageThree := by
  have startable : PageState.Startable ⟨0⟩ := ⟨by decide, by decide⟩
  have zero : ∀ {place : ℕ}, place ≠ apart.page 3 + 16 → sevenOnPageThree place = 0 :=
    fun other => if_neg other
  have three : 3 < numPages := by decide
  refine ⟨?_, ?_, ?_, ?_⟩
  · intro pid below
    have other : apart.state + pid * pageStatePadding ≠ apart.page 3 + 16 :=
      (vmcache_serves apart_separated).fixWord pid below 3 three
    rw [zero other]
    exact startable
  · intro pid below
    have other : apart.bufTags + pid * 8 ≠ apart.page 3 + 16 :=
      (hash_serves apart_separated).fixWord pid below 3 three
    rw [zero other]
    exact startable
  · intro pid below
    have other : apart.page pid ≠ apart.page 3 + 16 := by
      simp only [Layout.page, pageSize]
      omega
    rw [zero other]
    exact startable
  · intro pid below
    apply zero
    simp only [Layout.page, pageSize]
    omega

theorem managers_agree_on_sample :
    ∃ final : Test,
      (hash apart).performTest 1 [3, 5, 3, 1999] ⟨2, sevenOnPageThree⟩ = .finished final ∧
      (vmcache apart).performTest 1 [3, 5, 3, 1999] ⟨2, sevenOnPageThree⟩ = .finished final ∧
      (neovmcache apart).performTest 1 [3, 5, 3, 1999] ⟨2, sevenOnPageThree⟩ = .finished final := by
  have below : ∀ pid ∈ [3, 5, 3, 1999], pid < numPages := by simp [numPages]
  rcases managers_agree apart_separated sevenOnPageThree_words 2 below with ⟨final, agree, _⟩
  exact ⟨final, agree 1 (by decide)⟩

/-! ## The experiment -/

theorem pageIds_lt (count current : ℕ) : ∀ pid ∈ pageIds count current, pid < numPages := by
  induction count generalizing current with
  | zero => simp [pageIds]
  | succ count ih =>
      intro pid mem
      simp only [pageIds, List.mem_cons] at mem
      rcases mem with isFirst | mem
      · rw [isFirst]
        apply Nat.mod_lt
        simp [numPages]
      · exact ih (lcgNext current) pid mem

/-- The three tests of `main`, one after the other on the same pages. -/
def experiment (layout : Layout) (passes count : ℕ) (test : Test) : TestResult :=
  -- Every test constructs its own generator, with the seed `42`.
  let trace := pageIds count 42
  match (hash layout).performTest passes trace test with
  | .finished test =>
      match (vmcache layout).performTest passes trace test with
      | .finished test => (neovmcache layout).performTest passes trace test
      | stopped => stopped
  | stopped => stopped

/-- The experiment does the plain workload three times. -/
theorem experiment_eq {layout : Layout} (separated : layout.Separated) {test : Test}
    (words : StartWords layout test.mem) (passes count : ℕ) :
    experiment layout (passes + 1) count test =
      .finished (plainTest layout
        (pageIds count 42 ++ pageIds count 42 ++ pageIds count 42) test) := by
  have below := pageIds_lt count 42
  have wordsHash := words.plainTest separated below
  have wordsVmcache := wordsHash.plainTest separated below
  have appended : ∀ first second : List ℕ, plainTest layout (first ++ second) test =
      plainTest layout second (plainTest layout first test) :=
    fun first second => List.foldl_append
  simp only [experiment, hash_performTest separated words passes below,
    vmcache_performTest separated wordsHash passes below,
    neovmcache_performTest wordsVmcache passes below, appended]

end UserLevelMmap.BufferManager
