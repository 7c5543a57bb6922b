import UserLevelMmap.Pteditor.Basic

/-!
# Exclusion by the semaphores

Every request that walks the tables of a process holds the semaphore of its `mm_struct`,
because `mm_is_locked` is never set: `VM_LOCK` acquires the semaphore as a writer and then
asks for it as a reader, so it waits for itself. It never returns, and from then on no request
for the same process gets to its tables. The entries themselves may still change, by requests
for a process that shares them and by `WRITE_PAGE`.
-/

namespace UserLevelMmap.Pteditor

open PageTable

variable {Thread Mm : Type} {cfg : Config Thread Mm}

/-- What is known of a thread at its place: it has seen the module unlocked, and it holds
the semaphore where it uses the tables. -/
def Pc.Sound (sems : Mm → Rwsem Thread) (thread : Thread) : Pc Mm → Prop
  | .waiting _ _ lock => lock = true
  | .inside command mm lock _ => lock = true ∧ (sems mm).Holds command.mode thread
  | .lockRead mm => (sems mm).Holds .write thread
  | .unlockWrite _ | .unlockRead _ => False
  | _ => True

theorem Pc.Sound.mono {sems sems' : Mm → Rwsem Thread} {thread : Thread} {pc : Pc Mm}
    (sound : pc.Sound sems thread)
    (keeps : ∀ mm mode, (sems mm).Holds mode thread → (sems' mm).Holds mode thread) :
    pc.Sound sems' thread := by
  cases pc with
  | inside command mm lock body => exact ⟨sound.1, keeps _ _ sound.2⟩
  | lockRead mm => exact keeps mm .write sound
  | _ => exact sound

/-- The module is not locked, and every thread holds the semaphores that it needs. -/
structure Device.Safe (device : Device Thread Mm) : Prop where
  unlocked : device.mmIsLocked = false
  sound : ∀ thread, (device.pc thread).Sound device.sems thread

theorem start_safe (entries : ℕ → Entry) (pgd : Mm → ℕ) :
    (start entries pgd : Device Thread Mm).Safe where
  unlocked := rfl
  sound _ := trivial

theorem enter_sound (thread : Thread) (command : Command) (sems : Mm → Rwsem Thread) :
    (enter cfg false thread command).Sound sems thread := by
  have asks : ∀ pid answer, (enterMm cfg false thread command pid answer).Sound sems thread := by
    intro pid answer
    unfold enterMm
    split
    · rfl
    · trivial
  cases command with
  | vmResolve user => exact asks _ _
  | vmUpdate user => exact asks _ _
  | vmLock => trivial
  | vmUnlock => trivial
  | getRoot pid => exact asks _ _
  | setRoot pid root => exact asks _ _
  | writePage pfn content => trivial

variable [DecidableEq Thread]

/-- A thread moves on, and the semaphores of the others stay with them. -/
theorem Device.Safe.goto {device device' : Device Thread Mm} {thread : Thread} {pc : Pc Mm}
    (safe : device.Safe) (sameLock : device'.mmIsLocked = device.mmIsLocked)
    (samePc : device'.pc = device.pc)
    (keeps : ∀ other ≠ thread, ∀ mm mode,
      (device.sems mm).Holds mode other → (device'.sems mm).Holds mode other)
    (sound : pc.Sound device'.sems thread) : (device'.goto thread pc).Safe where
  unlocked := sameLock.trans safe.unlocked
  sound := by
    intro other
    by_cases isSame : other = thread
    · subst isSame
      rw [Device.goto_pc_self, Device.sems_goto]
      exact sound
    · rw [Device.goto_pc_of_ne _ isSame, Device.sems_goto, samePc]
      exact (safe.sound other).mono (keeps other isSame)

theorem Device.Safe.goto_self {device : Device Thread Mm} {thread : Thread} {pc : Pc Mm}
    (safe : device.Safe) (sound : pc.Sound device.sems thread) : (device.goto thread pc).Safe :=
  safe.goto rfl rfl (fun _ _ _ _ held => held) sound

variable [DecidableEq Mm]

/-- What a step of a thread does while the module is not locked. -/
theorem tick_cases {device after : Device Thread Mm} {thread : Thread} (safe : device.Safe)
    (stepped : tick cfg device thread = some after) :
    (∃ command answer, device.pc thread = .refused command answer ∧
      after = device.goto thread (.done answer)) ∨
    (∃ command mm sem, device.pc thread = .waiting command mm true ∧
      (device.sems mm).acquire command.mode thread = some sem ∧
      after = (device.setSem mm sem).goto thread (.inside command mm true command.body)) ∨
    (∃ command mm next, device.pc thread = .inside command mm true (.leave next) ∧
      after = (device.release mm command.mode thread).goto thread (next.pc mm)) ∨
    (∃ command mm body view body', device.pc thread = .inside command mm true body ∧
      bodyStep cfg.kernel (device.view mm) command body = some (view, body') ∧
      after = (device.setView mm view).goto thread (.inside command mm true body')) ∨
    (∃ mm user vm, device.pc thread = .toUser mm user vm [] ∧
      after = device.goto thread (.done (.resolved { user with valid := vm.valid }))) ∨
    (∃ mm user vm level rest, device.pc thread = .toUser mm user vm (level :: rest) ∧
      after = device.goto thread
        (.toUser mm (readLevel device.entries vm user level) vm rest)) ∨
    (∃ mm sem, device.pc thread = .lockWrite mm ∧
      (device.sems mm).acquire .write thread = some sem ∧
      after = (device.setSem mm sem).goto thread (.lockRead mm)) ∨
    (device.pc thread = .writePage [] ∧ after = device.goto thread (.done (.status 0))) ∨
    (∃ address entry rest, device.pc thread = .writePage ((address, entry) :: rest) ∧
      after = (device.setEntry address entry).goto thread (.writePage rest)) := by
  have sound := safe.sound thread
  unfold tick at stepped
  split at stepped
  · contradiction
  · contradiction
  · next command answer isPc =>
    exact Or.inl ⟨command, answer, isPc, (Option.some.inj stepped).symm⟩
  · next command mm lock isPc =>
    rw [isPc] at sound
    have isLock : lock = true := sound
    subst isLock
    rw [if_pos rfl, Option.map_eq_some_iff] at stepped
    rcases stepped with ⟨between, acquired, rfl⟩
    rcases Device.acquire_eq_some acquired with ⟨sem, isSem, rfl⟩
    exact Or.inr (Or.inl ⟨command, mm, sem, isPc, isSem, rfl⟩)
  · next command mm lock next isPc =>
    rw [isPc] at sound
    have isLock : lock = true := sound.1
    subst isLock
    have stillLocks : (if command.looksAgain then !device.mmIsLocked else true) = true := by
      rw [safe.unlocked]
      split_ifs <;> rfl
    simp only [stillLocks, if_true, Option.some.injEq] at stepped
    exact Or.inr (Or.inr (Or.inl ⟨command, mm, next, isPc, stepped.symm⟩))
  · next command mm lock body notLeave isPc =>
    rw [isPc] at sound
    have isLock : lock = true := sound.1
    subst isLock
    rw [Option.map_eq_some_iff] at stepped
    rcases stepped with ⟨⟨view, body'⟩, isStep, rfl⟩
    exact Or.inr (Or.inr (Or.inr (Or.inl ⟨command, mm, body, view, body', isPc, isStep, rfl⟩)))
  · next mm user vm isPc =>
    exact Or.inr (Or.inr (Or.inr (Or.inr (Or.inl
      ⟨mm, user, vm, isPc, (Option.some.inj stepped).symm⟩))))
  · next mm user vm level rest isPc =>
    exact Or.inr (Or.inr (Or.inr (Or.inr (Or.inr (Or.inl
      ⟨mm, user, vm, level, rest, isPc, (Option.some.inj stepped).symm⟩)))))
  · next mm isPc =>
    rw [Option.map_eq_some_iff] at stepped
    rcases stepped with ⟨between, acquired, rfl⟩
    rcases Device.acquire_eq_some acquired with ⟨sem, isSem, rfl⟩
    exact Or.inr (Or.inr (Or.inr (Or.inr (Or.inr (Or.inr (Or.inl
      ⟨mm, sem, isPc, isSem, rfl⟩))))))
  · -- The thread itself is the writer for which it would have to wait.
    next mm isPc =>
    rw [isPc] at sound
    have isWriter : (device.sems mm).Holds .write thread := sound
    rw [Option.map_eq_some_iff] at stepped
    rcases stepped with ⟨between, acquired, -⟩
    rcases Device.acquire_eq_some acquired with ⟨sem, isSem, -⟩
    rw [isWriter.acquire_eq_none] at isSem
    contradiction
  · next mm isPc =>
    rw [isPc] at sound
    exact sound.elim
  · next mm isPc =>
    rw [isPc] at sound
    exact sound.elim
  · next isPc =>
    exact Or.inr (Or.inr (Or.inr (Or.inr (Or.inr (Or.inr (Or.inr (Or.inl
      ⟨isPc, (Option.some.inj stepped).symm⟩)))))))
  · next address entry rest isPc =>
    exact Or.inr (Or.inr (Or.inr (Or.inr (Or.inr (Or.inr (Or.inr (Or.inr
      ⟨address, entry, rest, isPc, (Option.some.inj stepped).symm⟩)))))))

theorem Device.Safe.acquire {device : Device Thread Mm} {thread : Thread} {pc : Pc Mm} {mm : Mm}
    {mode : Mode} {sem : Rwsem Thread} (safe : device.Safe)
    (acquired : (device.sems mm).acquire mode thread = some sem)
    (sound : sem.Holds mode thread → pc.Sound (Function.update device.sems mm sem) thread) :
    ((device.setSem mm sem).goto thread pc).Safe := by
  refine safe.goto rfl rfl ?_ ?_
  · intro other distinct mm' mode' held
    rw [Device.sems_setSem]
    by_cases isSame : mm' = mm
    · subst isSame
      rw [Function.update_self]
      exact held.acquire acquired
    · rw [Function.update_of_ne isSame]
      exact held
  · rw [Device.sems_setSem]
    exact sound (Rwsem.acquire_holds acquired)

theorem Device.Safe.release {device : Device Thread Mm} {thread : Thread} {pc : Pc Mm} {mm : Mm}
    {mode : Mode} (safe : device.Safe) (held : (device.sems mm).Holds mode thread)
    (sound : pc.Sound (device.release mm mode thread).sems thread) :
    ((device.release mm mode thread).goto thread pc).Safe := by
  refine safe.goto rfl rfl ?_ sound
  intro other distinct mm' mode' otherHeld
  rw [Device.release, Device.sems_setSem]
  by_cases isSame : mm' = mm
  · subst isSame
    rw [Function.update_self]
    exact otherHeld.release held distinct
  · rw [Function.update_of_ne isSame]
    exact otherHeld

theorem Device.Safe.step {device after : Device Thread Mm} {action : Action Thread}
    (safe : device.Safe) (stepped : step cfg device action = some after) : after.Safe := by
  cases action with
  | call thread command =>
      simp only [Pteditor.step] at stepped
      split at stepped
      · rw [Option.some.injEq] at stepped
        rw [← stepped, safe.unlocked]
        exact safe.goto_self (enter_sound thread command device.sems)
      · contradiction
  | returns thread =>
      simp only [Pteditor.step] at stepped
      split at stepped
      · rw [Option.some.injEq] at stepped
        rw [← stepped]
        exact safe.goto_self trivial
      · contradiction
  | tick thread =>
      have sound := safe.sound thread
      rcases tick_cases safe stepped with
        ⟨command, answer, isPc, rfl⟩ | ⟨command, mm, sem, isPc, acquired, rfl⟩ |
        ⟨command, mm, next, isPc, rfl⟩ | ⟨command, mm, body, view, body', isPc, isStep, rfl⟩ |
        ⟨mm, user, vm, isPc, rfl⟩ | ⟨mm, user, vm, level, rest, isPc, rfl⟩ |
        ⟨mm, sem, isPc, acquired, rfl⟩ | ⟨isPc, rfl⟩ | ⟨address, entry, rest, isPc, rfl⟩
      · exact safe.goto_self trivial
      · refine safe.acquire acquired ?_
        intro held
        refine ⟨rfl, ?_⟩
        rw [Function.update_self]
        exact held
      · rw [isPc] at sound
        refine safe.release sound.2 ?_
        cases next <;> trivial
      · rw [isPc] at sound
        exact safe.goto rfl rfl (fun _ _ _ _ held => held) sound
      · exact safe.goto_self trivial
      · exact safe.goto_self trivial
      · refine safe.acquire acquired ?_
        intro held
        show (Function.update device.sems mm sem mm).Holds .write thread
        rw [Function.update_self]
        exact held
      · exact safe.goto_self trivial
      · exact safe.goto rfl rfl (fun _ _ _ _ held => held) trivial

theorem safe_of_run {entries : ℕ → Entry} {pgd : Mm → ℕ}
    {past : History (Device Thread Mm) (Action Thread)} {device : Device Thread Mm}
    (run : Run (step cfg) (start entries pgd) past device) : device.Safe :=
  run.invariant (fun _ _ => True) Device.Safe (start_safe entries pgd)
    (fun safe _ stepped => safe.step stepped) (fun _ _ => trivial)

/-! ## The request that locks the tables -/

/-- The thread asks for the semaphore of the process. -/
def Pc.Asks (mm : Mm) : Pc Mm → Prop
  | .waiting _ mm' _ => mm' = mm
  | .lockWrite mm' => mm' = mm
  | _ => False

/-- A thread has stayed in `VM_LOCK` and has kept everybody from the root of its process. -/
structure Device.Stuck (device after : Device Thread Mm) (thread : Thread) (mm : Mm) : Prop where
  waits : after.pc thread = .lockRead mm
  root : after.pgd mm = device.pgd mm
  asking : ∀ other, (device.pc other).Asks mm → after.pc other = device.pc other

section

variable {device device' after : Device Thread Mm} {thread mover : Thread} {mm : Mm} {pc : Pc Mm}

omit [DecidableEq Thread] [DecidableEq Mm] in
theorem Device.Stuck.trans (first : device.Stuck device' thread mm)
    (second : device'.Stuck after thread mm) : device.Stuck after thread mm where
  waits := second.waits
  root := second.root.trans first.root
  asking := by
    intro other asks
    have same := first.asking other asks
    rw [← same] at asks
    rw [second.asking other asks, same]

omit [DecidableEq Mm] in
/-- A thread that moves is another one, and it does not ask for the semaphore. -/
theorem Device.stuck_goto (isStuck : device.pc thread = .lockRead mm)
    (samePc : device'.pc = device.pc) (sameRoot : device'.pgd mm = device.pgd mm)
    (notStuck : device.pc mover ≠ .lockRead mm) (notAsks : ¬(device.pc mover).Asks mm) :
    device.Stuck (device'.goto mover pc) thread mm where
  waits := by
    have distinct : thread ≠ mover := by
      rintro rfl
      exact notStuck isStuck
    rw [Device.goto_pc_of_ne _ distinct, samePc, isStuck]
  root := sameRoot
  asking := by
    intro other asks
    have isOther : other ≠ mover := by
      rintro rfl
      exact notAsks asks
    rw [Device.goto_pc_of_ne _ isOther, samePc]

/-- While a thread waits in `VM_LOCK`, nobody gets to the tables of its process. -/
theorem Device.Safe.stuck {action : Action Thread} (safe : device.Safe)
    (isStuck : device.pc thread = .lockRead mm)
    (stepped : Pteditor.step cfg device action = some after) : device.Stuck after thread mm := by
  have isWriter : (device.sems mm).Holds .write thread := by
    have sound := safe.sound thread
    rw [isStuck] at sound
    exact sound
  have otherMm : ∀ {mm' mode mover sem}, (device.sems mm').acquire mode mover = some sem →
      mm' ≠ mm := by
    rintro mm' mode mover sem acquired rfl
    rw [isWriter.acquire_eq_none] at acquired
    contradiction
  cases action with
  | call mover command =>
      simp only [Pteditor.step] at stepped
      split at stepped
      · next isPc =>
        rw [Option.some.injEq] at stepped
        rw [← stepped]
        exact stuck_goto isStuck rfl rfl (by simp [isPc]) (by simp [isPc, Pc.Asks])
      · contradiction
  | returns mover =>
      simp only [Pteditor.step] at stepped
      split at stepped
      · next isPc =>
        rw [Option.some.injEq] at stepped
        rw [← stepped]
        exact stuck_goto isStuck rfl rfl (by simp [isPc]) (by simp [isPc, Pc.Asks])
      · contradiction
  | tick mover =>
      have sound := safe.sound mover
      rcases tick_cases safe stepped with
        ⟨command, answer, isPc, rfl⟩ | ⟨command, mm', sem, isPc, acquired, rfl⟩ |
        ⟨command, mm', next, isPc, rfl⟩ | ⟨command, mm', body, view, body', isPc, isStep, rfl⟩ |
        ⟨mm', user, vm, isPc, rfl⟩ | ⟨mm', user, vm, level, rest, isPc, rfl⟩ |
        ⟨mm', sem, isPc, acquired, rfl⟩ | ⟨isPc, rfl⟩ | ⟨address, entry, rest, isPc, rfl⟩
      · exact stuck_goto isStuck rfl rfl (by simp [isPc]) (by simp [isPc, Pc.Asks])
      · exact stuck_goto isStuck rfl rfl (by simp [isPc])
          (by simp [isPc, Pc.Asks, otherMm acquired])
      · exact stuck_goto isStuck rfl rfl (by simp [isPc])
          (by simp [isPc, Pc.Asks])
      · have isOther : mm ≠ mm' := by
          rintro rfl
          rw [isPc] at sound
          rw [(isWriter.eq_of_write sound.2).1, isStuck] at isPc
          contradiction
        exact stuck_goto isStuck rfl (device.pgd_setView_of_ne isOther _) (by simp [isPc])
          (by simp [isPc, Pc.Asks])
      · exact stuck_goto isStuck rfl rfl (by simp [isPc]) (by simp [isPc, Pc.Asks])
      · exact stuck_goto isStuck rfl rfl (by simp [isPc]) (by simp [isPc, Pc.Asks])
      · exact stuck_goto isStuck rfl rfl (by simp [isPc])
          (by simp [isPc, Pc.Asks, otherMm acquired])
      · exact stuck_goto isStuck rfl rfl (by simp [isPc]) (by simp [isPc, Pc.Asks])
      · exact stuck_goto isStuck rfl rfl (by simp [isPc]) (by simp [isPc, Pc.Asks])

end

/-- In every run the module stays unlocked. A thread that has acquired the semaphore in
`VM_LOCK` never leaves it again; from then on no request for its process is at its tables, its
root stays as it is, and whoever asks for the semaphore waits for ever. -/
theorem vm_lock_never_returns {entries : ℕ → Entry} {pgd : Mm → ℕ}
    {past : History (Device Thread Mm) (Action Thread)} {device : Device Thread Mm}
    (run : Run (step cfg) (start entries pgd) past device) :
    device.mmIsLocked = false ∧
      ∀ thread mm, device.pc thread = .lockRead mm →
        ∀ later final, Run (step cfg) device later final →
          device.Stuck final thread mm ∧
            ∀ other command lock body, final.pc other ≠ .inside command mm lock body := by
  have safe := safe_of_run run
  refine ⟨safe.unlocked, ?_⟩
  intro thread mm isStuck later final continued
  have stuck : final.Safe ∧ device.Stuck final thread mm := by
    apply continued.invariant (fun _ _ => True)
      (fun state => state.Safe ∧ device.Stuck state thread mm)
    · exact ⟨safe, isStuck, rfl, fun _ _ => rfl⟩
    · rintro before after action ⟨safe, stuck⟩ - stepped
      exact ⟨safe.step stepped, stuck.trans (safe.stuck stuck.waits stepped)⟩
    · exact fun _ _ => trivial
  refine ⟨stuck.2, ?_⟩
  intro other command lock body isInside
  have isWriter := stuck.1.sound thread
  rw [stuck.2.waits] at isWriter
  have held := stuck.1.sound other
  rw [isInside] at held
  have isThread := (Rwsem.Holds.eq_of_write isWriter held.2).1
  rw [isThread, stuck.2.waits] at isInside
  contradiction

/-! ## A process with two threads -/

/-- The macros for four levels on x86-64, where the fourth level is folded into the fifth. -/
def x86Kernel : Kernel where
  pgdOffset pgd addr := pgd + addr / 2 ^ 39 % 512 * 8
  p4dOffset pgd _ _ := pgd
  pudOffset _ entry addr := entry.frame * 4096 + addr / 2 ^ 30 % 512 * 8
  pmdOffset _ entry addr := entry.frame * 4096 + addr / 2 ^ 21 % 512 * 8
  pteOffsetMap _ entry addr := some (entry.frame * 4096 + addr / 2 ^ 12 % 512 * 8)
  pgdNone _ := false
  pgdBad _ := false
  p4dNone entry := entry = 0
  p4dBad entry := !entry.present
  pudNone entry := entry = 0
  pudLarge entry := entry.present && entry.size
  pmdNone entry := entry = 0
  pmdLarge entry := entry.present && entry.size

/-- Two threads of one process. -/
def twoThreads : Config Bool Unit where
  kernel := x86Kernel
  getMm _ _ := some ()
  activeMm _ := ()

/-- Tables in the frames `1` to `4`, each behind the first entry of the one before. -/
def fourTables (address : ℕ) : Entry :=
  if address % 4096 = 0 ∧ address / 4096 < 5 then
    BitVec.ofNat 64 ((address / 4096 + 1) * 4096 + 7)
  else 0

/-- The root of the process is in frame `1`. -/
def firstRoot (_ : Unit) : ℕ := 0x1000

/-- After `VM_LOCK` of one thread the other one waits for the root for ever. -/
theorem root_never_read :
    ∃ (past : _) (device : Device Bool Unit),
      Run (step twoThreads) (start fourTables firstRoot) past device ∧
      device.pc true = .waiting (.getRoot 0) () true ∧
      ∀ later final, Run (step twoThreads) device later final →
        final.pc true = .waiting (.getRoot 0) () true := by
  have initial : Run (step twoThreads) (start fourTables firstRoot) []
    (start fourTables firstRoot) := .start
  have run := ((initial.extend (.call false .vmLock) rfl).extend (.tick false) rfl).extend
    (.call true (.getRoot 0)) rfl
  refine ⟨_, _, run, rfl, ?_⟩
  intro later final continued
  exact ((vm_lock_never_returns run).2 false () rfl later final continued).1.asking true rfl

end UserLevelMmap.Pteditor
