import UserLevelMmap.Library.Run
import UserLevelMmap.BufferManager.PageState

/-!
# `fix` and `unfix` as a lock

Any number of threads fix and unfix one page of one manager. The atomic steps
are the load of the state word, the compare-and-swap, and the read and the write
of the bit-field store in `setUnlocked`.

The compare-and-swap of `fix` keeps the `marked` bit of the word it locks, and the
loop takes a marked word for a free one. A marked page can therefore be fixed by
two threads at once, while an unmarked page has one word when it is free and one
when it is fixed, and only the first lets a `fix` through.
-/

namespace UserLevelMmap.BufferManager

/-- The next atomic step of a thread. -/
inductive Pc where
  | idle
  /-- `fix`: load the state word. -/
  | fixing
  /-- `fix`: compare-and-swap the loaded word. -/
  | swapping (s : PageState)
  /-- `unfix`: the read of the bit-field store. -/
  | unfixing
  /-- `unfix`: the write of the bit-field store. -/
  | storing (s : PageState)
  /-- The assertion of the evicted branch failed. -/
  | aborted
  deriving DecidableEq, Repr

/-- The memory, the threads, and how many fixes of the page each thread has to undo. -/
structure Fixes where
  mem : Memory
  pc : ℕ → Pc
  fixed : ℕ → ℕ

/-- What a thread does next. -/
inductive Action where
  | callFix (thread : ℕ)
  | callUnfix (thread : ℕ)
  | tick (thread : ℕ)
  deriving DecidableEq, Repr

/-- No thread has fixed the page. -/
def start (mem : Memory) : Fixes where
  mem := mem
  pc _ := .idle
  fixed _ := 0

def Fixes.goto (fixes : Fixes) (thread : ℕ) (pc : Pc) : Fixes :=
  { fixes with pc := Function.update fixes.pc thread pc }

/-- The transition function for one page of a manager. -/
def step (manager : Manager) (pid : ℕ) : Transition Fixes Action
  | fixes, .callFix thread =>
      if fixes.pc thread = .idle then some (fixes.goto thread .fixing) else none
  | fixes, .callUnfix thread =>
      if fixes.pc thread = .idle ∧ 0 < fixes.fixed thread then
        some (fixes.goto thread .unfixing)
      else
        none
  | fixes, .tick thread =>
      match fixes.pc thread with
      | .idle => none
      | .aborted => none
      | .fixing =>
          match manager.load fixes.mem pid with
          | .abort => some (fixes.goto thread .aborted)
          | .attempt s => some (fixes.goto thread (.swapping s))
          | .again => some fixes
      | .swapping s =>
          match compareAndSwap fixes.mem (manager.fixWord pid) s.state s.lockedState with
          | some mem =>
              some
                { mem := mem
                  pc := Function.update fixes.pc thread .idle
                  fixed := Function.update fixes.fixed thread (fixes.fixed thread + 1) }
          | none => some (fixes.goto thread .fixing)
      | .unfixing =>
          some (fixes.goto thread
            (.storing ⟨fixes.mem (manager.unfixWord pid (manager.vaddr pid))⟩))
      | .storing s =>
          some
            { mem := Function.update fixes.mem (manager.unfixWord pid (manager.vaddr pid))
                s.setUnlocked.all
              pc := Function.update fixes.pc thread .idle
              fixed := Function.update fixes.fixed thread (fixes.fixed thread - 1) }

/-- At most one thread is between the return of `fix` and the completion of `unfix`. -/
def IsLock (manager : Manager) (mem : Memory) (pid : ℕ) : Prop :=
  ∀ (past : History Fixes Action) (fixes : Fixes),
    Run (step manager pid) (start mem) past fixes →
      ∀ thread other, 0 < fixes.fixed thread → 0 < fixes.fixed other → thread = other

/-! ## Pages that the extra test keeps from being fixed -/

/-- Nobody gets past the extra test of `fix`. -/
structure Blocked (manager : Manager) (pid : ℕ) (fixes : Fixes) : Prop where
  notReady : manager.ready fixes.mem pid = false
  fixed : ∀ thread, fixes.fixed thread = 0
  waiting : ∀ thread, fixes.pc thread = .idle ∨ fixes.pc thread = .fixing ∨
    fixes.pc thread = .aborted

variable {manager : Manager} {pid : ℕ}

theorem load_of_notReady {mem : Memory} (notReady : manager.ready mem pid = false) :
    manager.load mem pid = .abort ∨ manager.load mem pid = .again := by
  unfold Manager.load
  simp only [notReady, Bool.and_false, Bool.false_eq_true, if_false]
  split
  · exact Or.inl rfl
  · exact Or.inr rfl

theorem Blocked.goto {fixes : Fixes} (blocked : Blocked manager pid fixes) {thread : ℕ} {pc : Pc}
    (waits : pc = .idle ∨ pc = .fixing ∨ pc = .aborted) :
    Blocked manager pid (fixes.goto thread pc) where
  notReady := blocked.notReady
  fixed := blocked.fixed
  waiting other := by
    by_cases isThread : other = thread
    · subst other
      simpa [Fixes.goto] using waits
    · simpa [Fixes.goto, isThread] using blocked.waiting other

theorem Blocked.step {before after : Fixes} {action : Action}
    (blocked : Blocked manager pid before)
    (stepped : step manager pid before action = some after) : Blocked manager pid after := by
  cases action with
  | callFix thread =>
      simp only [BufferManager.step, Option.ite_none_right_eq_some, Option.some.injEq] at stepped
      rw [← stepped.2]
      apply blocked.goto
      simp
  | callUnfix thread =>
      simp only [BufferManager.step, Option.ite_none_right_eq_some] at stepped
      have holds := stepped.1.2
      simp [blocked.fixed thread] at holds
  | tick thread =>
      rcases blocked.waiting thread with at_pc | at_pc | at_pc
      · simp [BufferManager.step, at_pc] at stepped
      · rcases load_of_notReady blocked.notReady with loaded | loaded
        · simp only [BufferManager.step, at_pc, loaded, Option.some.injEq] at stepped
          rw [← stepped]
          apply blocked.goto
          simp
        · simp only [BufferManager.step, at_pc, loaded, Option.some.injEq] at stepped
          rw [← stepped]
          exact blocked
      · simp [BufferManager.step, at_pc] at stepped

theorem isLock_of_notReady {mem : Memory} (notReady : manager.ready mem pid = false) :
    IsLock manager mem pid := by
  intro past fixes run thread other holds
  have blocked : Blocked manager pid fixes := by
    refine run.invariant (fun _ _ => True) _ ⟨notReady, fun _ => rfl, fun _ => .inl rfl⟩
      ?_ (fun _ _ => trivial)
    intro before after action blocked _ stepped
    exact blocked.step stepped
  simp [blocked.fixed thread] at holds

/-! ## Unmarked pages -/

/-- What the steps of a thread know about the word of an unmarked page. -/
def Pc.Knows (word : PageState) (fixed : ℕ) : Pc → Prop
  | .idle => True
  | .fixing => True
  | .swapping s => s = word
  | .unfixing => 0 < fixed
  | .storing s => 0 < fixed ∧ s = ⟨word.lockedState⟩
  | .aborted => False

/-- The word of an unmarked page is the start word when nobody has fixed the page,
and the locked start word when one thread has. -/
structure Locked (manager : Manager) (pid : ℕ) (word : PageState) (fixes : Fixes) : Prop where
  knows : ∀ thread, (fixes.pc thread).Knows word (fixes.fixed thread)
  free_or_held :
    (∀ thread, fixes.fixed thread = 0) ∧ fixes.mem (manager.fixWord pid) = word.all ∨
      ∃ owner, fixes.fixed owner = 1 ∧ (∀ other, other ≠ owner → fixes.fixed other = 0) ∧
        fixes.mem (manager.fixWord pid) = word.lockedState

namespace Locked

variable {word : PageState} {before after : Fixes}

theorem fixed_unique {fixes : Fixes} (locked : Locked manager pid word fixes)
    {thread other : ℕ} (holds : 0 < fixes.fixed thread) (holdsOther : 0 < fixes.fixed other) :
    thread = other := by
  rcases locked.free_or_held with ⟨nobody, _⟩ | ⟨owner, _, others, _⟩
  · simp [nobody thread] at holds
  · have isOwner : ∀ holder, 0 < fixes.fixed holder → holder = owner := by
      intro holder held
      by_contra distinct
      simp [others holder distinct] at held
    rw [isOwner thread holds, isOwner other holdsOther]

theorem goto (locked : Locked manager pid word before) {thread : ℕ} {pc : Pc}
    (knows : pc.Knows word (before.fixed thread)) :
    Locked manager pid word (before.goto thread pc) where
  knows other := by
    by_cases isThread : other = thread
    · subst other
      simpa [Fixes.goto] using knows
    · simpa [Fixes.goto, isThread] using locked.knows other
  free_or_held := locked.free_or_held

theorem load_cases (locked : Locked manager pid word before) (startable : word.Startable)
    (notMarked : word.isMarked = false) :
    manager.load before.mem pid = .again ∨ manager.load before.mem pid = .attempt word := by
  rcases locked.free_or_held with ⟨_, mem_eq⟩ | ⟨owner, _, _, mem_eq⟩
  · simp only [Manager.load, mem_eq, startable.notEvicted, startable.unlocked,
      Bool.or_true, Bool.true_and, Bool.false_eq_true, if_false]
    split
    · exact Or.inr rfl
    · exact Or.inl rfl
  · simp [Manager.load, mem_eq, startable.notEvicted, notMarked]

theorem swap (locked : Locked manager pid word before) (startable : word.Startable)
    {thread : ℕ} (succeeds : before.mem (manager.fixWord pid) = word.state) :
    Locked manager pid word
      { mem := Function.update before.mem (manager.fixWord pid) word.lockedState
        pc := Function.update before.pc thread .idle
        fixed := Function.update before.fixed thread (before.fixed thread + 1) } := by
  have nobody : ∀ other, before.fixed other = 0 := by
    rcases locked.free_or_held with ⟨nobody, _⟩ | ⟨owner, _, _, mem_eq⟩
    · exact nobody
    · have same : (⟨word.lockedState⟩ : PageState) = word := by
        rw [← mem_eq, succeeds]
        rfl
      have unlocked := startable.unlocked
      rw [← same, PageState.isUnlocked_lockedState] at unlocked
      contradiction
  constructor
  · intro other
    by_cases isThread : other = thread
    · subst other
      simp [Pc.Knows]
    · simpa [isThread] using locked.knows other
  · refine Or.inr ⟨thread, by simp [nobody thread], ?_, by simp⟩
    intro other distinct
    simp [distinct, nobody other]

theorem store (locked : Locked manager pid word before) (startable : word.Startable)
    {thread : ℕ} (holds : 0 < before.fixed thread) :
    Locked manager pid word
      { mem := Function.update before.mem (manager.fixWord pid)
          (PageState.setUnlocked ⟨word.lockedState⟩).all
        pc := Function.update before.pc thread .idle
        fixed := Function.update before.fixed thread (before.fixed thread - 1) } := by
  have onlyHolder : before.fixed thread = 1 ∧ ∀ other, other ≠ thread → before.fixed other = 0 := by
    rcases locked.free_or_held with ⟨nobody, _⟩ | ⟨owner, once, others, _⟩
    · simp [nobody thread] at holds
    · have isOwner : thread = owner := by
        by_contra distinct
        simp [others thread distinct] at holds
      subst owner
      exact ⟨once, others⟩
  constructor
  · intro other
    by_cases isThread : other = thread
    · subst other
      simp [Pc.Knows]
    · simpa [isThread] using locked.knows other
  · refine Or.inl ⟨?_, ?_⟩
    · intro other
      by_cases isThread : other = thread
      · subst other
        simp [onlyHolder.1]
      · simp [isThread, onlyHolder.2 other isThread]
    · simp [PageState.setUnlocked_lockedState word startable.unlocked]

theorem read (locked : Locked manager pid word before) {thread : ℕ}
    (holds : 0 < before.fixed thread) :
    before.mem (manager.fixWord pid) = word.lockedState := by
  rcases locked.free_or_held with ⟨nobody, _⟩ | ⟨owner, _, _, mem_eq⟩
  · simp [nobody thread] at holds
  · exact mem_eq

theorem step {action : Action} (locked : Locked manager pid word before)
    (startable : word.Startable) (notMarked : word.isMarked = false)
    (stepped : BufferManager.step manager pid before action = some after) :
    Locked manager pid word after := by
  cases action with
  | callFix thread =>
      simp only [BufferManager.step, Option.ite_none_right_eq_some, Option.some.injEq] at stepped
      rw [← stepped.2]
      exact locked.goto trivial
  | callUnfix thread =>
      simp only [BufferManager.step, Option.ite_none_right_eq_some, Option.some.injEq] at stepped
      rw [← stepped.2]
      exact locked.goto stepped.1.2
  | tick thread =>
      have knows := locked.knows thread
      cases at_pc : before.pc thread with
      | idle => simp [BufferManager.step, at_pc] at stepped
      | aborted => simp [BufferManager.step, at_pc] at stepped
      | fixing =>
          rcases locked.load_cases startable notMarked with loaded | loaded
          · simp only [BufferManager.step, at_pc, loaded, Option.some.injEq] at stepped
            rw [← stepped]
            exact locked
          · simp only [BufferManager.step, at_pc, loaded, Option.some.injEq] at stepped
            rw [← stepped]
            exact locked.goto rfl
      | swapping s =>
          rw [at_pc] at knows
          have same : s = word := knows
          subst s
          simp only [BufferManager.step, at_pc, compareAndSwap] at stepped
          by_cases succeeds : before.mem (manager.fixWord pid) = word.state
          · simp only [succeeds, if_true, Option.some.injEq] at stepped
            rw [← stepped]
            exact locked.swap startable succeeds
          · simp only [if_neg succeeds, Option.some.injEq] at stepped
            rw [← stepped]
            exact locked.goto trivial
      | unfixing =>
          rw [at_pc] at knows
          have holds : 0 < before.fixed thread := knows
          simp only [BufferManager.step, at_pc, manager.unfix_vaddr, locked.read holds,
            Option.some.injEq] at stepped
          rw [← stepped]
          exact locked.goto ⟨holds, rfl⟩
      | storing s =>
          rw [at_pc] at knows
          rcases knows with ⟨holds, rfl⟩
          simp only [BufferManager.step, at_pc, manager.unfix_vaddr, Option.some.injEq] at stepped
          rw [← stepped]
          exact locked.store startable holds

end Locked

theorem isLock_of_notMarked {mem : Memory}
    (startable : PageState.Startable ⟨mem (manager.fixWord pid)⟩)
    (notMarked : PageState.isMarked ⟨mem (manager.fixWord pid)⟩ = false) :
    IsLock manager mem pid := by
  intro past fixes run thread other holds holdsOther
  have locked : Locked manager pid ⟨mem (manager.fixWord pid)⟩ fixes := by
    refine run.invariant (fun _ _ => True) _
      ⟨fun _ => trivial, Or.inl ⟨fun _ => rfl, rfl⟩⟩ ?_ (fun _ _ => trivial)
    intro before after action locked _ stepped
    exact locked.step startable notMarked stepped
  exact locked.fixed_unique holds holdsOther

/-! ## Marked pages -/

/-- A thread that starts at its load fixes a marked page, whoever has fixed it before. -/
theorem fix_of_marked {past : History Fixes Action} {mem : Memory} {fixes : Fixes}
    (run : Run (step manager pid) (start mem) past fixes) (thread : ℕ)
    (isIdle : fixes.pc thread = .idle)
    (notEvicted : PageState.isEvicted ⟨fixes.mem (manager.fixWord pid)⟩ = false)
    (marked : PageState.isMarked ⟨fixes.mem (manager.fixWord pid)⟩ = true)
    (ready : manager.ready fixes.mem pid = true) :
    ∃ past' fixes', Run (step manager pid) (start mem) past' fixes' ∧
      fixes'.fixed = Function.update fixes.fixed thread (fixes.fixed thread + 1) ∧
      fixes'.pc = Function.update fixes.pc thread .idle ∧
      fixes'.mem = Function.update fixes.mem (manager.fixWord pid)
        (PageState.lockedState ⟨fixes.mem (manager.fixWord pid)⟩) := by
  let s : PageState := ⟨fixes.mem (manager.fixWord pid)⟩
  have loaded : manager.load fixes.mem pid = .attempt s := by
    simp [Manager.load, notEvicted, marked, ready, s]
  have called : step manager pid fixes (.callFix thread) =
      some (fixes.goto thread .fixing) := by
    simp [step, isIdle]
  have attempted : step manager pid (fixes.goto thread .fixing) (.tick thread) =
      some ((fixes.goto thread .fixing).goto thread (.swapping s)) := by
    simp [step, Fixes.goto, loaded]
  have swapped : step manager pid ((fixes.goto thread .fixing).goto thread (.swapping s))
      (.tick thread) = some
        { mem := Function.update fixes.mem (manager.fixWord pid) s.lockedState
          pc := Function.update fixes.pc thread .idle
          fixed := Function.update fixes.fixed thread (fixes.fixed thread + 1) } := by
    simp [step, Fixes.goto, compareAndSwap, PageState.state, s]
  exact ⟨_, _, ((run.step called).step attempted).step swapped, rfl, rfl, rfl⟩

theorem not_isLock_of_marked {mem : Memory}
    (startable : PageState.Startable ⟨mem (manager.fixWord pid)⟩)
    (marked : PageState.isMarked ⟨mem (manager.fixWord pid)⟩ = true)
    (ready : manager.ready mem pid = true) : ¬IsLock manager mem pid := by
  intro isLock
  have initial : Run (step manager pid) (start mem) [] (start mem) := .start
  rcases fix_of_marked initial 0 rfl startable.notEvicted marked ready with
    ⟨past, fixes, run, fixed_eq, pc_eq, mem_eq⟩
  rcases fix_of_marked run 1 (by simp [pc_eq, start])
    (by simpa [mem_eq, start] using startable.notEvicted)
    (by simpa [mem_eq, start] using marked)
    (by simpa [mem_eq, start, manager.ready_write] using ready) with
    ⟨past', fixes', run', fixed_eq', _, _⟩
  have same := isLock past' fixes' run' 0 1 (by simp [fixed_eq', fixed_eq, start])
    (by simp [fixed_eq'])
  contradiction

theorem isLock_iff {mem : Memory}
    (startable : PageState.Startable ⟨mem (manager.fixWord pid)⟩) :
    IsLock manager mem pid ↔
      PageState.isMarked ⟨mem (manager.fixWord pid)⟩ = false ∨
        manager.ready mem pid = false := by
  constructor
  · intro isLock
    by_contra neither
    simp only [not_or, Bool.not_eq_false] at neither
    exact not_isLock_of_marked startable neither.1 neither.2 isLock
  · rintro (notMarked | notReady)
    · exact isLock_of_notMarked startable notMarked
    · exact isLock_of_notReady notReady

/-- For every start word that is neither evicted nor locked, `fix` and `unfix` are
a lock exactly when the word is not marked, and for `neovmcache` also when the
second word of the page is not `0`, since no `fix` returns then. -/
theorem fix_unfix_isLock_iff (layout : Layout) (mem : Memory) (pid : ℕ) :
    (PageState.Startable ⟨mem (layout.state + pid * pageStatePadding)⟩ →
      (IsLock (vmcache layout) mem pid ↔
        PageState.isMarked ⟨mem (layout.state + pid * pageStatePadding)⟩ = false)) ∧
    (PageState.Startable ⟨mem (layout.bufTags + pid * 8)⟩ →
      (IsLock (hash layout) mem pid ↔
        PageState.isMarked ⟨mem (layout.bufTags + pid * 8)⟩ = false)) ∧
    (PageState.Startable ⟨mem (layout.virtMem + pid * pageSize)⟩ →
      (IsLock (neovmcache layout) mem pid ↔
        PageState.isMarked ⟨mem (layout.virtMem + pid * pageSize)⟩ = false ∨
          mem (layout.virtMem + pid * pageSize + 8) ≠ 0)) := by
  refine ⟨?_, ?_, ?_⟩
  · intro (startable : PageState.Startable ⟨mem ((vmcache layout).fixWord pid)⟩)
    rw [isLock_iff startable]
    simp [vmcache]
  · intro (startable : PageState.Startable ⟨mem ((hash layout).fixWord pid)⟩)
    rw [isLock_iff startable]
    simp [hash]
  · intro (startable : PageState.Startable ⟨mem ((neovmcache layout).fixWord pid)⟩)
    rw [isLock_iff startable]
    simp [neovmcache]

/-- Three mappings apart from each other. -/
def apart : Layout where
  state := 16777216
  bufTags := 33554432
  virtMem := 4096
  bufTable pid := 4096 + pid * 4096

theorem fix_unfix_isLock_of_zeros :
    IsLock (vmcache apart) (fun _ => 0) 7 ∧ IsLock (hash apart) (fun _ => 0) 7 ∧
      IsLock (neovmcache apart) (fun _ => 0) 7 := by
  have startable : PageState.Startable ⟨0⟩ := ⟨by decide, by decide⟩
  have locks := fix_unfix_isLock_iff apart (fun _ => 0) 7
  exact ⟨(locks.1 startable).mpr (by decide), (locks.2.1 startable).mpr (by decide),
    (locks.2.2 startable).mpr (Or.inl (by decide))⟩

/-- A data file whose first word is `2`, with marked words in the side arrays. -/
def markedWords : Memory :=
  fun address => if address = apart.virtMem + 8 then 0 else 2

/-- Each of the three managers lets two threads fix a page with a marked start word. -/
theorem two_threads_fix_marked_page :
    (PageState.Startable ⟨markedWords (apart.state + 0 * pageStatePadding)⟩ ∧
      ¬IsLock (vmcache apart) markedWords 0) ∧
    (PageState.Startable ⟨markedWords (apart.bufTags + 0 * 8)⟩ ∧
      ¬IsLock (hash apart) markedWords 0) ∧
    (PageState.Startable ⟨markedWords (apart.virtMem + 0 * pageSize)⟩ ∧
      ¬IsLock (neovmcache apart) markedWords 0) := by
  have startable : PageState.Startable ⟨2⟩ := ⟨by decide, by decide⟩
  refine ⟨⟨startable, ?_⟩, ⟨startable, ?_⟩, ⟨startable, ?_⟩⟩
  · exact not_isLock_of_marked startable (by decide) (by decide)
  · exact not_isLock_of_marked startable (by decide) (by decide)
  · exact not_isLock_of_marked startable (by decide) (by decide)

end UserLevelMmap.BufferManager
