import Mathlib.Data.Fintype.Basic
import UserLevelMmap.Library.Simulation
import UserLevelMmap.Pteditor.Exclusion

/-!
# Requests as single steps

A request holds the semaphore of its process from its first access to the tables to its last
write, so the requests for one process take effect one after the other. There are two gaps.
`VM_RESOLVE` gives the semaphore back before `vm_to_user` copies the entries that the walk has
found. And the semaphore of a process keeps away neither the requests for another process that
shares tables with it nor `WRITE_PAGE`.

Therefore the entries are divided among the processes. In every run in which the walks look at
entries of their own process, no page with such entries is overwritten and no entry is written
while entries of the same process are copied, the device behaves as an object whose requests are
single steps, each at the moment at which it gives the semaphore back.
-/

namespace UserLevelMmap.Pteditor

open PageTable

/-! ## The walk -/

section Walk

variable {kernel : Kernel} {view : View} {addr : ℕ}

/-- The number of levels that a walk may still look at. -/
def levelsLeft : Option Level → ℕ
  | some .pgd => 5
  | some .p4d => 4
  | some .pud => 3
  | some .pmd => 2
  | some .pte => 1
  | none => 0

theorem eq_none_of_levelsLeft {next : Option Level} (none_left : levelsLeft next = 0) :
    next = none := by
  rcases next with _ | level
  · rfl
  · cases level <;> simp [levelsLeft] at none_left

theorem levelsLeft_resolveStep (progress : Option Level × Vm) :
    levelsLeft (resolveStep kernel view addr progress).1 ≤ levelsLeft progress.1 - 1 := by
  rcases progress with ⟨_ | level, vm⟩
  · simp [resolveStep, levelsLeft]
  · cases level with
    | pgd =>
        simp only [resolveStep]
        split_ifs <;> simp [levelsLeft]
    | p4d =>
        simp only [resolveStep]
        split
        · simp [levelsLeft]
        · split_ifs <;> simp [levelsLeft]
    | pud =>
        simp only [resolveStep]
        split
        · simp [levelsLeft]
        · split_ifs <;> simp [levelsLeft]
    | pmd =>
        simp only [resolveStep]
        split
        · simp [levelsLeft]
        · split_ifs <;> simp [levelsLeft]
    | pte =>
        simp only [resolveStep]
        split
        · simp [levelsLeft]
        · split
          · simp [levelsLeft]
          · split_ifs <;> simp [levelsLeft]

theorem levelsLeft_iterate (progress : Option Level × Vm) (count : ℕ) :
    levelsLeft ((resolveStep kernel view addr)^[count] progress).1 ≤
      levelsLeft progress.1 - count := by
  induction count with
  | zero => simp
  | succ count ih =>
      rw [Function.iterate_succ_apply']
      exact (levelsLeft_resolveStep _).trans (by omega)

/-- A walk that has come to its end has found what `resolve_vm` finds. -/
theorem resolveVm_of_end {vm : Vm} {count : ℕ}
    (ended : (none, vm) = (resolveStep kernel view addr)^[count] (some .pgd, Vm.empty)) :
    vm = resolveVm kernel view addr := by
  have fixed : ∀ (vm : Vm) (more : ℕ),
      (resolveStep kernel view addr)^[more] (none, vm) = (none, vm) :=
    fun vm more => Function.iterate_fixed rfl more
  unfold resolveVm
  rcases Nat.le_total count 5 with isEarly | isLate
  · have split : 5 = (5 - count) + count := by omega
    rw [split, Function.iterate_add_apply, ← ended, fixed]
  · have split : count = (count - 5) + 5 := by omega
    have isEnd : ((resolveStep kernel view addr)^[5] (some .pgd, Vm.empty)).1 = none :=
      eq_none_of_levelsLeft (Nat.le_zero.mp (levelsLeft_iterate (some .pgd, Vm.empty) 5))
    rw [split, Function.iterate_add_apply] at ended
    generalize (resolveStep kernel view addr)^[5] (some .pgd, Vm.empty) = five at *
    rcases five with ⟨next, found⟩
    have isNone : next = none := isEnd
    rw [isNone, fixed, Prod.mk.injEq] at ended
    exact ended.2

end Walk

/-! ## The entries of a process -/

section Own

variable {Mm : Type} {owner : ℕ → Option Mm} {mm : Mm} {kernel : Kernel} {view view' view'' : View}
  {addr : ℕ} {vm : Vm}

/-- The address of the entry that the walk looks at next. -/
def lookAt (kernel : Kernel) (view : View) (addr : ℕ) (vm : Vm) : Level → Option ℕ
  | .pgd => some (kernel.pgdOffset view.pgd addr)
  | .p4d => (vm.pointer .pgd).map (fun pgd => kernel.p4dOffset pgd (view.entries pgd) addr)
  | .pud => (vm.pointer .p4d).map (fun p4d => kernel.pudOffset p4d (view.entries p4d) addr)
  | .pmd => (vm.pointer .pud).map (fun pud => kernel.pmdOffset pud (view.entries pud) addr)
  | .pte => (vm.pointer .pmd).bind (fun pmd => kernel.pteOffsetMap pmd (view.entries pmd) addr)

/-- The entries that a walk has found belong to the process. -/
def Vm.Owned (owner : ℕ → Option Mm) (mm : Mm) (vm : Vm) : Prop :=
  ∀ level address, vm.pointer level = some address → owner address = some mm

theorem Vm.Owned.found (owned : vm.Owned owner mm) {address : ℕ} (isOwn : owner address = some mm)
    (level : Level) : (vm.found level address).Owned owner mm := by
  intro other place isPointer
  by_cases isSame : other = level
  · subst isSame
    simp only [Vm.found, Function.update_self, Option.some.injEq] at isPointer
    rw [← isPointer]
    exact isOwn
  · simp only [Vm.found, Function.update_of_ne isSame] at isPointer
    exact owned other place isPointer

/-- Two views show a process the same root and the same entries of its own. -/
structure SameView (owner : ℕ → Option Mm) (mm : Mm) (view view' : View) : Prop where
  pgd : view.pgd = view'.pgd
  entries : ∀ {address : ℕ}, owner address = some mm → view.entries address = view'.entries address

theorem SameView.refl (view : View) : SameView owner mm view view where
  pgd := rfl
  entries _ := rfl

theorem SameView.symm (same : SameView owner mm view view') : SameView owner mm view' view where
  pgd := same.pgd.symm
  entries isOwn := (same.entries isOwn).symm

theorem SameView.trans (same : SameView owner mm view view')
    (same' : SameView owner mm view' view'') : SameView owner mm view view'' where
  pgd := same.pgd.trans same'.pgd
  entries isOwn := (same.entries isOwn).trans (same'.entries isOwn)

/-- A walk that looks at entries of its process goes on in the same way in every view that shows
the same. -/
theorem resolveStep_congr {level : Level} (same : SameView owner mm view view')
    (owned : vm.Owned owner mm)
    (looks : ∀ address, lookAt kernel view addr vm level = some address →
      owner address = some mm) :
    resolveStep kernel view addr (some level, vm) = resolveStep kernel view' addr (some level, vm) ∧
      (resolveStep kernel view addr (some level, vm)).2.Owned owner mm := by
  cases level with
  | pgd =>
      have isOwn := looks _ rfl
      simp only [resolveStep, ← same.pgd, ← same.entries isOwn, true_and]
      split_ifs
      · exact owned
      · exact owned.found isOwn _
  | p4d =>
      cases isPointer : vm.pointer .pgd with
      | none =>
          simp only [resolveStep, isPointer, true_and]
          exact owned
      | some pgd =>
          have isOwn := looks _ (by rw [lookAt, isPointer, Option.map_some])
          simp only [resolveStep, isPointer, ← same.entries (owned _ _ isPointer),
            ← same.entries isOwn, true_and]
          split_ifs
          · exact owned
          · exact owned.found isOwn _
  | pud =>
      cases isPointer : vm.pointer .p4d with
      | none =>
          simp only [resolveStep, isPointer, true_and]
          exact owned
      | some p4d =>
          have isOwn := looks _ (by rw [lookAt, isPointer, Option.map_some])
          simp only [resolveStep, isPointer, ← same.entries (owned _ _ isPointer),
            ← same.entries isOwn, true_and]
          split_ifs
          · exact owned
          · exact owned.found isOwn _
  | pmd =>
      cases isPointer : vm.pointer .pud with
      | none =>
          simp only [resolveStep, isPointer, true_and]
          exact owned
      | some pud =>
          have isOwn := looks _ (by rw [lookAt, isPointer, Option.map_some])
          simp only [resolveStep, isPointer, ← same.entries (owned _ _ isPointer),
            ← same.entries isOwn, true_and]
          split_ifs
          · exact owned
          · exact owned.found isOwn _
  | pte =>
      cases isPointer : vm.pointer .pmd with
      | none =>
          simp only [resolveStep, isPointer, true_and]
          exact owned
      | some pmd =>
          simp only [resolveStep, isPointer, ← same.entries (owned _ _ isPointer), true_and]
          split
          · exact owned
          · next pte isPte =>
            have isOwn := looks pte (by rw [lookAt, isPointer, Option.bind_some, isPte])
            split_ifs
            · exact owned
            · exact owned.found isOwn _

/-! ## Writes and copies -/

/-- The entries after some writes. -/
def store (entries : ℕ → Entry) (writes : List (ℕ × Entry)) : ℕ → Entry :=
  writes.foldl (fun entries write => Function.update entries write.1 write.2) entries

theorem store_of_ne {entries : ℕ → Entry} {writes : List (ℕ × Entry)} {address : ℕ}
    (elsewhere : ∀ write ∈ writes, write.1 ≠ address) :
    store entries writes address = entries address := by
  induction writes generalizing entries with
  | nil => rfl
  | cons write rest ih =>
      show store (Function.update entries write.1 write.2) rest address = entries address
      rw [ih (fun other isWrite => elsewhere other (List.mem_cons_of_mem _ isWrite)),
        Function.update_of_ne (elsewhere write List.mem_cons_self).symm]

theorem store_congr {entries entries' : ℕ → Entry} {address : ℕ}
    (same : entries address = entries' address) (writes : List (ℕ × Entry)) :
    store entries writes address = store entries' writes address := by
  induction writes generalizing entries entries' with
  | nil => exact same
  | cons write rest ih =>
      show store (Function.update entries write.1 write.2) rest address =
        store (Function.update entries' write.1 write.2) rest address
      apply ih
      by_cases isSame : address = write.1
      · subst isSame
        rw [Function.update_self, Function.update_self]
      · rw [Function.update_of_ne isSame, Function.update_of_ne isSame]
        exact same

theorem Vm.Owned.updateWrites (owned : vm.Owned owner mm) (user : PteditEntry) :
    ∀ write ∈ updateWrites vm user, owner write.1 = some mm := by
  intro write isWrite
  rw [Pteditor.updateWrites, List.mem_filterMap] at isWrite
  rcases isWrite with ⟨level, -, isLevel⟩
  rw [Option.ite_none_right_eq_some, Option.map_eq_some_iff] at isLevel
  rcases isLevel with ⟨-, address, isPointer, rfl⟩
  exact owned level address isPointer

theorem readLevel_congr (same : ∀ {address : ℕ}, owner address = some mm →
      view.entries address = view'.entries address) (owned : vm.Owned owner mm)
    (user : PteditEntry) (level : Level) :
    readLevel view.entries vm user level = readLevel view'.entries vm user level := by
  unfold readLevel
  cases isPointer : vm.pointer level with
  | none => rfl
  | some address =>
      dsimp only
      rw [same (owned level address isPointer)]

theorem vmToUser_congr (same : ∀ {address : ℕ}, owner address = some mm →
      view.entries address = view'.entries address) (owned : vm.Owned owner mm)
    (levels : List Level) (user : PteditEntry) :
    vmToUser view.entries vm levels user = vmToUser view'.entries vm levels user := by
  have step : readLevel view.entries vm = readLevel view'.entries vm := by
    funext user level
    exact readLevel_congr same owned user level
  rw [vmToUser, vmToUser, step]

end Own

/-! ## The object -/

/-- The process of a request. -/
def Command.pid : Command → ℕ
  | .vmResolve user | .vmUpdate user => user.pid
  | .getRoot pid | .setRoot pid _ => pid
  | .vmLock | .vmUnlock | .writePage _ _ => 0

/-- The address for which a request walks the tables. -/
def Command.vaddr : Command → ℕ
  | .vmResolve user | .vmUpdate user => user.vaddr
  | _ => 0

/-- The request is for the tables of a process. -/
def Command.NeedsMm : Command → Prop
  | .vmLock | .vmUnlock | .writePage _ _ => False
  | _ => True

/-- The answer for a process that there is not. -/
def Command.missing : Command → Answer
  | .vmResolve user => .resolved { user with valid := 0 }
  | .vmUpdate _ => .status 0
  | .getRoot _ | .setRoot _ _ => .status 1
  | .vmLock | .vmUnlock | .writePage _ _ => .status (-1)

/-- A request for a process as one step: the view that it leaves and its answer. -/
def perform (kernel : Kernel) (view : View) : Command → Option (View × Answer)
  | .vmResolve user =>
      let vm := resolveVm kernel view user.vaddr
      some (view, .resolved (vmToUser view.entries vm userLevels user))
  | .vmUpdate user =>
      let writes := updateWrites (resolveVm kernel view user.vaddr) user
      some ({ view with entries := store view.entries writes }, .status 0)
  | .getRoot _ => some (view, .root view.pgd)
  | .setRoot _ root => some ({ view with pgd := root }, .status 0)
  | .vmLock | .vmUnlock | .writePage _ _ => none

/-- Where a thread is in its use of the object. -/
inductive Phase where
  | idle
  | called (command : Command)
  | answered (answer : Answer)

structure Object (Thread Mm : Type) where
  entries : ℕ → Entry
  pgd : Mm → ℕ
  phase : Thread → Phase

inductive Event (Thread : Type) where
  | call (thread : Thread) (command : Command)
  | act (thread : Thread)
  | returns (thread : Thread)

variable {Thread Mm : Type}

def Object.start (entries : ℕ → Entry) (pgd : Mm → ℕ) : Object Thread Mm where
  entries := entries
  pgd := pgd
  phase := fun _ => .idle

def Object.view (object : Object Thread Mm) (mm : Mm) : View where
  pgd := object.pgd mm
  entries := object.entries

def Object.setView [DecidableEq Mm] (object : Object Thread Mm) (mm : Mm) (view : View) :
    Object Thread Mm :=
  { object with
    entries := view.entries
    pgd := Function.update object.pgd mm view.pgd }

variable [DecidableEq Thread] [DecidableEq Mm] {cfg : Config Thread Mm} {owner : ℕ → Option Mm}

def Object.goto (object : Object Thread Mm) (thread : Thread) (phase : Phase) :
    Object Thread Mm :=
  { object with phase := Function.update object.phase thread phase }

/-- The step of a request. `VM_UNLOCK` is refused, and there is no such step for `VM_LOCK`. -/
def Object.act (cfg : Config Thread Mm) (object : Object Thread Mm) (thread : Thread) :
    Command → Option (Object Thread Mm)
  | .vmLock => none
  | .vmUnlock => some (object.goto thread (.answered (.status (-1))))
  | .writePage pfn content =>
      some { object.goto thread (.answered (.status 0)) with
        entries := store object.entries (pageWrites pfn content) }
  | command =>
      match cfg.getMm thread command.pid with
      | none => some (object.goto thread (.answered command.missing))
      | some mm =>
          (perform cfg.kernel (object.view mm) command).map (fun outcome =>
            (object.setView mm outcome.1).goto thread (.answered outcome.2))

def Object.step (cfg : Config Thread Mm) : Transition (Object Thread Mm) (Event Thread)
  | object, .call thread command =>
      match object.phase thread with
      | .idle => some (object.goto thread (.called command))
      | _ => none
  | object, .act thread =>
      match object.phase thread with
      | .called command => object.act cfg thread command
      | _ => none
  | object, .returns thread =>
      match object.phase thread with
      | .answered _ => some (object.goto thread .idle)
      | _ => none

/-- The moments of the object in the steps of the threads. -/
def moment (device : Device Thread Mm) : Action Thread → Option (Event Thread)
  | .call thread command => some (.call thread command)
  | .tick thread =>
      match device.pc thread with
      | .refused _ _ => some (.act thread)
      | .inside _ _ _ (.leave _) => some (.act thread)
      | .writePage [] => some (.act thread)
      | _ => none
  | .returns thread => some (.returns thread)

/-- The walks look at entries of their own process, no entry of a process is written while a thread
still copies entries of the same process, and no page with entries of a process is overwritten. -/
def Undisturbed (cfg : Config Thread Mm) (owner : ℕ → Option Mm) (device : Device Thread Mm) :
    Action Thread → Prop
  | .tick thread =>
      (∀ command mm lock level vm,
        device.pc thread = .inside command mm lock (.walk (some level, vm)) →
          ∀ address, lookAt cfg.kernel (device.view mm) command.vaddr vm level = some address →
            owner address = some mm) ∧
      ∀ command mm lock address entry rest,
        device.pc thread = .inside command mm lock (.write ((address, entry) :: rest)) →
          ∀ other user vm levels, device.pc other ≠ .toUser mm user vm levels
  | .call _ (.writePage pfn content) => ∀ write ∈ pageWrites pfn content, owner write.1 = none
  | _ => True

/-! ## The relation -/

/-- How far a request has come under the semaphore, when it has found the view `before` and it is
now the view `now`. -/
def Tracks (kernel : Kernel) (owner : ℕ → Option Mm) (mm : Mm) (command : Command)
    (before now : View) : Body → Prop
  | .walk progress =>
      SameView owner mm now before ∧ progress.2.Owned owner mm ∧
        ∃ user, (command = .vmResolve user ∨ command = .vmUpdate user) ∧
          ∃ count, progress =
            (resolveStep kernel before user.vaddr)^[count] (some .pgd, Vm.empty)
  | .write writes =>
      ∃ user, command = .vmUpdate user ∧ now.pgd = before.pgd ∧
        (∀ write ∈ writes, owner write.1 = some mm) ∧
        (resolveVm kernel before user.vaddr).Owned owner mm ∧
        ∀ {address : ℕ}, owner address = some mm → store now.entries writes address =
          store before.entries (updateWrites (resolveVm kernel before user.vaddr) user) address
  | .root => SameView owner mm now before ∧
      ((∃ pid, command = .getRoot pid) ∨ ∃ pid root, command = .setRoot pid root)
  | .leave (.toUser user vm) =>
      SameView owner mm now before ∧ command = .vmResolve user ∧
        vm = resolveVm kernel before user.vaddr ∧ vm.Owned owner mm
  | .leave (.reply answer) =>
      ∃ after, perform kernel before command = some (after, answer) ∧
        SameView owner mm now after ∧
        ∀ {address : ℕ}, owner address ≠ some mm → after.entries address = before.entries address

omit [DecidableEq Mm] in
theorem Tracks.congr {kernel : Kernel} {mm : Mm} {command : Command} {before now now' : View}
    {body : Body} (tracks : Tracks kernel owner mm command before now body)
    (same : SameView owner mm now' now) : Tracks kernel owner mm command before now' body := by
  cases body with
  | walk progress => exact ⟨same.trans tracks.1, tracks.2⟩
  | write writes =>
      rcases tracks with ⟨user, isCommand, samePgd, ownWrites, owned, stored⟩
      refine ⟨user, isCommand, same.pgd.trans samePgd, ownWrites, owned, ?_⟩
      intro address isOwn
      rw [store_congr (same.entries isOwn), stored isOwn]
  | root => exact ⟨same.trans tracks.1, tracks.2⟩
  | leave next =>
      cases next with
      | toUser user vm => exact ⟨same.trans tracks.1, tracks.2⟩
      | reply answer =>
          rcases tracks with ⟨after, performed, sameAfter, kept⟩
          exact ⟨after, performed, same.trans sameAfter, kept⟩

omit [DecidableEq Mm] in
/-- A step under the semaphore tracks the request. -/
theorem Tracks.step {kernel : Kernel} {mm : Mm} {command : Command} {before now next : View}
    {body body' : Body} (tracks : Tracks kernel owner mm command before now body)
    (looks : ∀ level vm, body = .walk (some level, vm) → ∀ address,
      lookAt kernel now command.vaddr vm level = some address → owner address = some mm)
    (stepped : bodyStep kernel now command body = some (next, body')) :
    Tracks kernel owner mm command before next body' := by
  unfold bodyStep at stepped
  split at stepped
  · next vm =>
    rcases tracks with ⟨same, owned, user, isCommand, count, ended⟩
    have isVm := resolveVm_of_end ended
    rcases isCommand with rfl | rfl
    · simp only [Option.some.injEq, Prod.mk.injEq] at stepped
      rcases stepped with ⟨rfl, rfl⟩
      exact ⟨same, rfl, isVm, owned⟩
    · simp only [Option.some.injEq, Prod.mk.injEq] at stepped
      rcases stepped with ⟨rfl, rfl⟩
      refine ⟨user, rfl, same.pgd, owned.updateWrites user, isVm ▸ owned, ?_⟩
      intro address isOwn
      rw [isVm]
      exact store_congr (same.entries isOwn) _
  · next level vm =>
    rcases tracks with ⟨same, owned, user, isCommand, count, isProgress⟩
    have isStep : next = now ∧ command.vaddr = user.vaddr ∧
        body' = .walk (resolveStep kernel now user.vaddr (some level, vm)) := by
      rcases isCommand with rfl | rfl
      · simpa [eq_comm, Command.vaddr] using stepped
      · simpa [eq_comm, Command.vaddr] using stepped
    rcases isStep with ⟨rfl, vaddr_eq, rfl⟩
    have looksOwn := looks level vm rfl
    rw [vaddr_eq] at looksOwn
    rcases resolveStep_congr same owned looksOwn with ⟨sameStep, ownedStep⟩
    refine ⟨same, ownedStep, user, isCommand, count + 1, ?_⟩
    rw [Function.iterate_succ_apply', ← isProgress, sameStep]
  · rcases tracks with ⟨user, rfl, samePgd, -, owned, stored⟩
    simp only [Option.some.injEq, Prod.mk.injEq] at stepped
    rcases stepped with ⟨rfl, rfl⟩
    refine ⟨_, rfl, ⟨samePgd, stored⟩, ?_⟩
    intro address isOther
    refine store_of_ne ?_
    rintro write isWrite rfl
    exact isOther (owned.updateWrites user write isWrite)
  · next address entry rest =>
    rcases tracks with ⟨user, rfl, samePgd, ownWrites, owned, stored⟩
    simp only [Option.some.injEq, Prod.mk.injEq] at stepped
    rcases stepped with ⟨rfl, rfl⟩
    exact ⟨user, rfl, samePgd,
      fun write isWrite => ownWrites write (List.mem_cons_of_mem _ isWrite), owned, stored⟩
  · rcases tracks with ⟨same, ⟨pid, rfl⟩ | ⟨pid, root, rfl⟩⟩
    · simp only [Option.some.injEq, Prod.mk.injEq] at stepped
      rcases stepped with ⟨rfl, rfl⟩
      exact ⟨before, by rw [perform, same.pgd], same, fun _ => rfl⟩
    · simp only [Option.some.injEq, Prod.mk.injEq] at stepped
      rcases stepped with ⟨rfl, rfl⟩
      exact ⟨_, rfl, ⟨rfl, same.entries⟩, fun _ => rfl⟩
  · contradiction

/-- The phase of a thread in the object, by its place in the device. A request under the semaphore
is as far for the object as for any view that shows the same. -/
def Pc.Follows (cfg : Config Thread Mm) (owner : ℕ → Option Mm) (object : Object Thread Mm)
    (views : Mm → View) (thread : Thread) : Pc Mm → Prop
  | .idle => object.phase thread = .idle
  | .refused command answer =>
      object.phase thread = .called command ∧
        (command = .vmUnlock ∧ answer = .status (-1) ∨
          command.NeedsMm ∧ cfg.getMm thread command.pid = none ∧ answer = command.missing)
  | .waiting command mm _ =>
      object.phase thread = .called command ∧ command.NeedsMm ∧
        cfg.getMm thread command.pid = some mm
  | .inside command mm _ body =>
      object.phase thread = .called command ∧ command.NeedsMm ∧
        cfg.getMm thread command.pid = some mm ∧
          ∀ view, SameView owner mm view (object.view mm) →
            Tracks cfg.kernel owner mm command view (views mm) body
  | .toUser mm user vm levels =>
      object.phase thread = .answered (.resolved (vmToUser (views mm).entries vm levels user)) ∧
        vm.Owned owner mm
  | .lockWrite _ | .lockRead _ => object.phase thread = .called .vmLock
  | .unlockWrite _ | .unlockRead _ => False
  | .writePage writes =>
      ∃ pfn content, object.phase thread = .called (.writePage pfn content) ∧
        (∀ write ∈ pageWrites pfn content, owner write.1 = none) ∧
        ∀ write ∈ writes, owner write.1 = none
  | .done answer => object.phase thread = .answered answer

/-- Nobody changes the tables of the process. -/
def Device.Quiet (device : Device Thread Mm) (mm : Mm) : Prop :=
  ∀ thread command lock body, device.pc thread = .inside command mm lock body →
    command.mode = .read

/-- The object that the device shows. -/
structure Represents (cfg : Config Thread Mm) (owner : ℕ → Option Mm) (device : Device Thread Mm)
    (object : Object Thread Mm) : Prop where
  safe : device.Safe
  follows : ∀ thread, (device.pc thread).Follows cfg owner object device.view thread
  quiet : ∀ mm, device.Quiet mm → SameView owner mm (device.view mm) (object.view mm)

omit [DecidableEq Thread] [DecidableEq Mm] in
theorem represents_start (entries : ℕ → Entry) (pgd : Mm → ℕ) :
    Represents cfg owner (start entries pgd) (Object.start entries pgd) where
  safe := start_safe entries pgd
  follows _ := rfl
  quiet _ _ := SameView.refl _

section

variable {device device' : Device Thread Mm} {object object' : Object Thread Mm} {thread : Thread}
  {pc : Pc Mm}

omit [DecidableEq Thread] [DecidableEq Mm] in
/-- A thread follows on while its own phase and the entries that it uses stay. -/
theorem Pc.Follows.mono {views views' : Mm → View}
    (follows : pc.Follows cfg owner object views thread)
    (samePhase : object'.phase thread = object.phase thread)
    (sameInside : ∀ command mm lock body, pc = .inside command mm lock body →
      SameView owner mm (object'.view mm) (object.view mm) ∧
        SameView owner mm (views' mm) (views mm))
    (sameUser : ∀ mm user vm levels, pc = .toUser mm user vm levels →
      ∀ {address : ℕ}, owner address = some mm →
        (views' mm).entries address = (views mm).entries address) :
    pc.Follows cfg owner object' views' thread := by
  cases pc with
  | inside command mm lock body =>
      rcases sameInside command mm lock body rfl with ⟨sameObject, sameView⟩
      rcases follows with ⟨isCalled, needsMm, isMm, tracks⟩
      refine ⟨samePhase.trans isCalled, needsMm, isMm, ?_⟩
      intro view same
      exact (tracks view (same.trans sameObject)).congr sameView
  | toUser mm user vm levels =>
      rcases follows with ⟨isAnswered, owned⟩
      refine ⟨?_, owned⟩
      rw [samePhase, isAnswered, vmToUser_congr (sameUser mm user vm levels rfl) owned]
  | unlockWrite mm => exact follows
  | unlockRead mm => exact follows
  | _ =>
      simp only [Follows] at follows ⊢
      rw [samePhase]
      exact follows

omit [DecidableEq Mm] in
/-- A thread moves on; whatever else changes is not used by the others. -/
theorem Represents.move (represents : Represents cfg owner device object)
    (safe : (device'.goto thread pc).Safe) (samePc : device'.pc = device.pc)
    (samePhase : ∀ other ≠ thread, object'.phase other = object.phase other)
    (sameInside : ∀ other ≠ thread, ∀ command mm lock body,
      device.pc other = .inside command mm lock body →
        SameView owner mm (object'.view mm) (object.view mm) ∧
          SameView owner mm (device'.view mm) (device.view mm))
    (sameUser : ∀ other ≠ thread, ∀ mm user vm levels, device.pc other = .toUser mm user vm levels →
      ∀ {address : ℕ}, owner address = some mm →
        (device'.view mm).entries address = (device.view mm).entries address)
    (follows : pc.Follows cfg owner object' device'.view thread)
    (quiet : ∀ mm, (device'.goto thread pc).Quiet mm →
      SameView owner mm (device'.view mm) (object'.view mm)) :
    Represents cfg owner (device'.goto thread pc) object' where
  safe := safe
  follows := by
    intro other
    by_cases isSame : other = thread
    · subst isSame
      rw [Device.goto_pc_self]
      exact follows
    · rw [Device.goto_pc_of_ne _ isSame, samePc]
      exact (represents.follows other).mono (samePhase other isSame) (sameInside other isSame)
        (sameUser other isSame)
  quiet := quiet

omit [DecidableEq Mm] in
theorem Device.Quiet.of_goto {mm : Mm} (samePc : device'.pc = device.pc)
    (notInside : ∀ command lock body, device.pc thread = .inside command mm lock body →
      command.mode = .read)
    (quiet : (device'.goto thread pc).Quiet mm) : device.Quiet mm := by
  intro other command lock body isInside
  by_cases isSame : other = thread
  · subst isSame
    exact notInside command lock body isInside
  · apply quiet other command lock body
    rw [Device.goto_pc_of_ne _ isSame, samePc]
    exact isInside

omit [DecidableEq Mm] in
/-- A thread moves on outside of the tables, and the entries of all processes stay as they are. -/
theorem Represents.move_outside (represents : Represents cfg owner device object)
    (safe : (device'.goto thread pc).Safe) (samePc : device'.pc = device.pc)
    (sameViews : ∀ mm, SameView owner mm (device'.view mm) (device.view mm))
    (sameObject : ∀ mm, SameView owner mm (object'.view mm) (object.view mm))
    (samePhase : ∀ other ≠ thread, object'.phase other = object.phase other)
    (notInside : ∀ command mm lock body, device.pc thread ≠ .inside command mm lock body)
    (follows : pc.Follows cfg owner object' device'.view thread) :
    Represents cfg owner (device'.goto thread pc) object' := by
  refine represents.move safe samePc samePhase ?_ ?_ follows ?_
  · intro other _ command mm lock body _
    exact ⟨sameObject mm, sameViews mm⟩
  · intro other _ mm user vm levels _ address isOwn
    exact (sameViews mm).entries isOwn
  · intro mm quiet
    have isQuiet : device.Quiet mm := quiet.of_goto samePc (fun command lock body isInside =>
      absurd isInside (notInside command mm lock body))
    exact ((sameViews mm).trans (represents.quiet mm isQuiet)).trans (sameObject mm).symm

omit [DecidableEq Mm] in
theorem Object.goto_phase_of_ne (object : Object Thread Mm) {other : Thread}
    (distinct : other ≠ thread) (phase : Phase) :
    (object.goto thread phase).phase other = object.phase other :=
  Function.update_of_ne distinct ..

omit [DecidableEq Mm] in
theorem Object.goto_phase_self (object : Object Thread Mm) (phase : Phase) :
    (object.goto thread phase).phase thread = phase :=
  Function.update_self ..

end

/-! ## The steps -/

theorem Object.act_of_needsMm (object : Object Thread Mm) (thread : Thread) {command : Command}
    (needsMm : command.NeedsMm) :
    object.act cfg thread command =
      match cfg.getMm thread command.pid with
      | none => some (object.goto thread (.answered command.missing))
      | some mm =>
          (perform cfg.kernel (object.view mm) command).map (fun outcome =>
            (object.setView mm outcome.1).goto thread (.answered outcome.2)) := by
  cases command with
  | vmLock => exact needsMm.elim
  | vmUnlock => exact needsMm.elim
  | writePage => exact needsMm.elim
  | _ => rfl

/-- Only a write of an entry changes entries, and a reader changes nothing. -/
theorem bodyStep_view {kernel : Kernel} {command : Command} {now next : View}
    {body body' : Body} (stepped : bodyStep kernel now command body = some (next, body')) :
    (command.mode = .read → (∀ writes, body ≠ .write writes) → next = now) ∧
      ∀ address, (∀ entry rest, body ≠ .write ((address, entry) :: rest)) →
        next.entries address = now.entries address := by
  -- Most steps return the view as it was.
  have kept : ∀ {later : Body}, some (now, later) = some (next, body') →
      (command.mode = .read → (∀ writes, body ≠ .write writes) → next = now) ∧
        ∀ address, (∀ entry rest, body ≠ .write ((address, entry) :: rest)) →
          next.entries address = now.entries address := by
    intro later same
    simp only [Option.some.injEq, Prod.mk.injEq] at same
    rw [same.1]
    exact ⟨fun _ _ => rfl, fun _ _ => rfl⟩
  unfold bodyStep at stepped
  split at stepped
  · split at stepped
    · exact kept stepped
    · exact kept stepped
    · contradiction
  · split at stepped
    · exact kept stepped
    · exact kept stepped
    · contradiction
  · exact kept stepped
  · next written entry rest =>
    simp only [Option.some.injEq, Prod.mk.injEq] at stepped
    rw [← stepped.1]
    refine ⟨fun _ notWrite => absurd rfl (notWrite _), ?_⟩
    intro address notWrite
    refine Function.update_of_ne ?_ ..
    rintro rfl
    exact notWrite _ _ rfl
  · split at stepped
    · exact kept stepped
    · next pid root =>
      simp only [Option.some.injEq, Prod.mk.injEq] at stepped
      rw [← stepped.1]
      exact ⟨fun isRead => absurd isRead (by simp [Command.mode]), fun _ _ => rfl⟩
    · contradiction
  · contradiction

section

variable {device after : Device Thread Mm} {object : Object Thread Mm} {thread : Thread}

omit [DecidableEq Mm] in
theorem Represents.call {command : Command} (represents : Represents cfg owner device object)
    (apart : Undisturbed cfg owner device (.call thread command))
    (isPc : device.pc thread = .idle)
    (safe : (device.goto thread (enter cfg device.mmIsLocked thread command)).Safe) :
    Represents cfg owner (device.goto thread (enter cfg device.mmIsLocked thread command))
      (object.goto thread (.called command)) := by
  refine represents.move_outside safe rfl (fun _ => SameView.refl _) (fun _ => SameView.refl _)
    (fun other distinct => object.goto_phase_of_ne distinct _) (by simp [isPc]) ?_
  rw [represents.safe.unlocked]
  have asks : command.NeedsMm →
      (enterMm cfg false thread command command.pid command.missing).Follows cfg owner
        (object.goto thread (.called command)) device.view thread := by
    intro needsMm
    unfold enterMm
    cases isMm : cfg.getMm thread command.pid with
    | none => exact ⟨object.goto_phase_self _, Or.inr ⟨needsMm, isMm, rfl⟩⟩
    | some mm => exact ⟨object.goto_phase_self _, needsMm, isMm⟩
  cases command with
  | vmResolve user => exact asks trivial
  | vmUpdate user => exact asks trivial
  | vmLock => exact object.goto_phase_self _
  | vmUnlock => exact ⟨object.goto_phase_self _, Or.inl ⟨rfl, rfl⟩⟩
  | getRoot pid => exact asks trivial
  | setRoot pid root => exact asks trivial
  | writePage pfn content => exact ⟨pfn, content, object.goto_phase_self _, apart, apart⟩

/-- A thread comes to the tables when nobody changes them. -/
theorem Represents.enters {command : Command} {mm : Mm} {sem : Rwsem Thread}
    (represents : Represents cfg owner device object)
    (isPc : device.pc thread = .waiting command mm true)
    (acquired : (device.sems mm).acquire command.mode thread = some sem)
    (safe : ((device.setSem mm sem).goto thread (.inside command mm true command.body)).Safe) :
    Represents cfg owner
      ((device.setSem mm sem).goto thread (.inside command mm true command.body)) object := by
  refine represents.move_outside safe rfl (fun _ => SameView.refl _) (fun _ => SameView.refl _)
    (fun _ _ => rfl) (by simp [isPc]) ?_
  have isQuiet : device.Quiet mm := by
    intro other command' lock body isInside
    have held := represents.safe.sound other
    rw [isInside] at held
    cases isMode : command'.mode with
    | read => rfl
    | write =>
        have isWriter : (device.sems mm).Holds .write other := isMode ▸ held.2
        rw [isWriter.acquire_eq_none] at acquired
        contradiction
  have waits := represents.follows thread
  rw [isPc] at waits
  refine ⟨waits.1, waits.2.1, waits.2.2, ?_⟩
  intro view sameObject
  have same : SameView owner mm (device.view mm) view :=
    (represents.quiet mm isQuiet).trans sameObject.symm
  have noPointer : Vm.empty.Owned owner mm := by
    intro level address isPointer
    simp [Vm.empty] at isPointer
  cases command with
  | vmResolve user => exact ⟨same, noPointer, user, Or.inl rfl, 0, rfl⟩
  | vmUpdate user => exact ⟨same, noPointer, user, Or.inr rfl, 0, rfl⟩
  | vmLock => exact waits.2.1.elim
  | vmUnlock => exact waits.2.1.elim
  | getRoot pid => exact ⟨same, Or.inl ⟨pid, rfl⟩⟩
  | setRoot pid root => exact ⟨same, Or.inr ⟨pid, root, rfl⟩⟩
  | writePage pfn content => exact waits.2.1.elim

omit [DecidableEq Thread] [DecidableEq Mm] in
/-- Nobody else is at the tables that a writer uses. -/
theorem Device.Safe.alone {command command' : Command} {mm : Mm} {lock lock' : Bool}
    {body body' : Body} {other : Thread} (safe : device.Safe)
    (isPc : device.pc thread = .inside command mm lock body) (isWrite : command.mode = .write)
    (isOther : device.pc other = .inside command' mm lock' body') : other = thread := by
  have held := safe.sound thread
  rw [isPc] at held
  have heldOther := safe.sound other
  rw [isOther] at heldOther
  have isWriter : (device.sems mm).Holds .write thread := isWrite ▸ held.2
  exact (isWriter.eq_of_write heldOther.2).1

omit [DecidableEq Thread] in
/-- A request that changes the view of its process leaves the entries of other processes. -/
theorem Device.sameView_setView {mm other : Mm} {next : View} (distinct : other ≠ mm)
    (kept : ∀ {address : ℕ}, owner address ≠ some mm →
      next.entries address = device.entries address) :
    SameView owner other ((device.setView mm next).view other) (device.view other) where
  pgd := device.pgd_setView_of_ne distinct next
  entries := by
    intro address isOwn
    apply kept
    rw [isOwn, ne_eq, Option.some.injEq]
    exact distinct

theorem Represents.works {command : Command} {mm : Mm} {body body' : Body} {next : View}
    (represents : Represents cfg owner device object)
    (undisturbed : Undisturbed cfg owner device (.tick thread))
    (isPc : device.pc thread = .inside command mm true body)
    (stepped : bodyStep cfg.kernel (device.view mm) command body = some (next, body'))
    (safe : ((device.setView mm next).goto thread (.inside command mm true body')).Safe) :
    Represents cfg owner ((device.setView mm next).goto thread (.inside command mm true body'))
      object := by
  have follows := represents.follows thread
  rw [isPc] at follows
  rcases follows with ⟨isCalled, needsMm, isMm, tracks⟩
  have changes := bodyStep_view stepped
  have tracksSelf := tracks _ (SameView.refl _)
  have ofRead : command.mode = .read → next = device.view mm := by
    intro isRead
    refine changes.1 isRead ?_
    rintro writes rfl
    rcases tracksSelf with ⟨user, rfl, -⟩
    simp [Command.mode] at isRead
  have keptElsewhere : ∀ {address : ℕ}, owner address ≠ some mm →
      next.entries address = device.entries address := by
    intro address isOther
    refine changes.2 address ?_
    rintro entry rest rfl
    rcases tracksSelf with ⟨user, -, -, ownWrites, -⟩
    exact isOther (ownWrites _ List.mem_cons_self)
  have sameElsewhere : ∀ mm', mm' ≠ mm →
      SameView owner mm' ((device.setView mm next).view mm') (device.view mm') :=
    fun mm' distinct => device.sameView_setView distinct keptElsewhere
  refine represents.move safe rfl (fun _ _ => rfl) ?_ ?_ ?_ ?_
  · intro other distinct command' mm' lock' body' isInside
    refine ⟨SameView.refl _, ?_⟩
    by_cases isSame : mm' = mm
    · subst isSame
      cases isMode : command.mode with
      | read =>
          rw [Device.view_setView_self, ofRead isMode]
          exact SameView.refl _
      | write => exact absurd (represents.safe.alone isPc isMode isInside) distinct
    · exact sameElsewhere mm' isSame
  · intro other distinct mm' user vm levels isUser address isOwn
    by_cases isSame : mm' = mm
    · subst isSame
      rw [Device.view_setView_self]
      refine changes.2 address ?_
      rintro entry rest rfl
      exact undisturbed.2 _ _ _ _ _ _ isPc _ _ _ _ isUser
    · exact (sameElsewhere mm' isSame).entries isOwn
  · refine ⟨isCalled, needsMm, isMm, ?_⟩
    intro view same
    rw [Device.view_setView_self]
    refine (tracks view same).step ?_ stepped
    rintro level vm rfl
    exact undisturbed.1 _ _ _ _ _ isPc
  · intro mm' quiet
    have isRead : mm' = mm → command.mode = .read := by
      rintro rfl
      exact quiet thread command true body' (Device.goto_pc_self ..)
    have isQuiet : device.Quiet mm' := by
      refine quiet.of_goto rfl ?_
      intro command' lock' body'' isInside
      rw [isPc] at isInside
      injection isInside with sameCommand sameMm
      rw [← sameCommand]
      exact isRead sameMm.symm
    refine SameView.trans ?_ (represents.quiet mm' isQuiet)
    by_cases isSame : mm' = mm
    · subst isSame
      rw [Device.view_setView_self, ofRead (isRead rfl)]
      exact SameView.refl _
    · exact sameElsewhere mm' isSame

omit [DecidableEq Thread] [DecidableEq Mm] in
/-- A request that has tracked its tables to the end has been performed. -/
theorem Tracks.performed {command : Command} {mm : Mm} {next : After} {views : Mm → View}
    {before : View} (tracks : Tracks cfg.kernel owner mm command before (views mm) (.leave next)) :
    ∃ left answer, perform cfg.kernel before command = some (left, answer) ∧
      SameView owner mm (views mm) left ∧
      (∀ {address : ℕ}, owner address ≠ some mm → left.entries address = before.entries address) ∧
      ∀ object : Object Thread Mm, object.phase thread = .answered answer →
        (next.pc mm).Follows cfg owner object views thread := by
  cases next with
  | reply answer =>
      rcases tracks with ⟨left, performed, same, kept⟩
      exact ⟨left, answer, performed, same, kept, fun _ isAnswered => isAnswered⟩
  | toUser user vm =>
      rcases tracks with ⟨same, rfl, rfl, owned⟩
      refine ⟨_, _, rfl, same, fun _ => rfl, ?_⟩
      intro object isAnswered
      refine ⟨?_, owned⟩
      rw [isAnswered, vmToUser_congr same.entries owned]

theorem perform_of_read {kernel : Kernel} {command : Command} {before now : View}
    {answer : Answer} (isRead : command.mode = .read)
    (performed : perform kernel before command = some (now, answer)) : now = before := by
  cases command with
  | vmResolve user =>
      simp only [perform, Option.some.injEq, Prod.mk.injEq] at performed
      exact performed.1.symm
  | getRoot pid =>
      simp only [perform, Option.some.injEq, Prod.mk.injEq] at performed
      exact performed.1.symm
  | _ => simp [Command.mode] at isRead

theorem Represents.leaves {command : Command} {mm : Mm} {next : After}
    (represents : Represents cfg owner device object)
    (isPc : device.pc thread = .inside command mm true (.leave next))
    (safe : ((device.release mm command.mode thread).goto thread (next.pc mm)).Safe) :
    ∃ object', object.act cfg thread command = some object' ∧
      Represents cfg owner ((device.release mm command.mode thread).goto thread (next.pc mm))
        object' := by
  have follows := represents.follows thread
  rw [isPc] at follows
  rcases follows with ⟨isCalled, needsMm, isMm, tracks⟩
  rcases (tracks _ (SameView.refl _)).performed with
    ⟨left, answer, performed, sameLeft, kept, answers⟩
  have viewSelf : ((object.setView mm left).goto thread (.answered answer)).view mm = left := by
    simp [Object.view, Object.setView, Object.goto]
  have sameElsewhere : ∀ mm', mm' ≠ mm →
      SameView owner mm' (((object.setView mm left).goto thread (.answered answer)).view mm')
        (object.view mm') := by
    intro mm' distinct
    refine ⟨Function.update_of_ne distinct .., ?_⟩
    intro address isOwn
    apply kept
    rw [isOwn, ne_eq, Option.some.injEq]
    exact distinct
  refine ⟨(object.setView mm left).goto thread (.answered answer), ?_, ?_⟩
  · rw [object.act_of_needsMm thread needsMm, isMm]
    dsimp only
    rw [performed]
    rfl
  · refine represents.move safe rfl
      (fun other distinct => (object.setView mm left).goto_phase_of_ne distinct _) ?_ ?_ ?_ ?_
    · intro other distinct command' mm' lock' body' isInside
      refine ⟨?_, SameView.refl _⟩
      by_cases isSame : mm' = mm
      · subst isSame
        cases isMode : command.mode with
        | read =>
            rw [viewSelf, perform_of_read isMode performed]
            exact SameView.refl _
        | write => exact absurd (represents.safe.alone isPc isMode isInside) distinct
      · exact sameElsewhere mm' isSame
    · intro other _ mm' user vm levels _ address _
      rfl
    · exact answers _ (Object.goto_phase_self _ _)
    · intro mm' quiet
      by_cases isSame : mm' = mm
      · subst isSame
        rw [viewSelf]
        exact sameLeft
      · have isQuiet : device.Quiet mm' := by
          refine quiet.of_goto rfl ?_
          intro command' lock' body' isInside
          rw [isPc] at isInside
          injection isInside with _ sameMm
          exact absurd sameMm.symm isSame
        exact (represents.quiet mm' isQuiet).trans (sameElsewhere mm' isSame).symm

theorem Represents.refuses {command : Command} {answer : Answer}
    (represents : Represents cfg owner device object)
    (isPc : device.pc thread = .refused command answer)
    (safe : (device.goto thread (.done answer)).Safe) :
    object.act cfg thread command = some (object.goto thread (.answered answer)) ∧
      Represents cfg owner (device.goto thread (.done answer))
        (object.goto thread (.answered answer)) := by
  have follows := represents.follows thread
  rw [isPc] at follows
  constructor
  · rcases follows.2 with ⟨rfl, rfl⟩ | ⟨needsMm, isMm, rfl⟩
    · rfl
    · rw [object.act_of_needsMm thread needsMm, isMm]
  · exact represents.move_outside safe rfl (fun _ => SameView.refl _) (fun _ => SameView.refl _)
      (fun other distinct => object.goto_phase_of_ne distinct _) (by simp [isPc])
      (object.goto_phase_self _)

/-- The last step of `WRITE_PAGE`. -/
theorem Represents.writes (represents : Represents cfg owner device object)
    (isPc : device.pc thread = .writePage [])
    (safe : (device.goto thread (.done (.status 0))).Safe) :
    ∃ command object', object.phase thread = .called command ∧
      object.act cfg thread command = some object' ∧
      Represents cfg owner (device.goto thread (.done (.status 0))) object' := by
  have follows := represents.follows thread
  rw [isPc] at follows
  rcases follows with ⟨pfn, content, isCalled, apart, -⟩
  have acts : object.act cfg thread (.writePage pfn content) =
      some { object.goto thread (.answered (.status 0)) with
        entries := store object.entries (pageWrites pfn content) } := by
    rw [Object.act]
  -- The list of the writes is long, and only where it writes matters.
  generalize pageWrites pfn content = writes at acts apart
  refine ⟨_, _, isCalled, acts, ?_⟩
  refine represents.move_outside safe rfl (fun _ => SameView.refl _) ?_
    (fun other distinct => object.goto_phase_of_ne distinct _) (by simp [isPc])
    (object.goto_phase_self _)
  refine fun mm => ⟨rfl, ?_⟩
  intro address isOwn
  refine store_of_ne ?_
  rintro write isWrite rfl
  rw [apart write isWrite] at isOwn
  contradiction

omit [DecidableEq Mm] in
/-- A step of `WRITE_PAGE` to an entry that belongs to no process. -/
theorem Represents.writesEntry {address : ℕ} {entry : Entry} {rest : List (ℕ × Entry)}
    (represents : Represents cfg owner device object)
    (isPc : device.pc thread = .writePage ((address, entry) :: rest))
    (safe : ((device.setEntry address entry).goto thread (.writePage rest)).Safe) :
    Represents cfg owner ((device.setEntry address entry).goto thread (.writePage rest))
      object := by
  have follows := represents.follows thread
  rw [isPc] at follows
  rcases follows with ⟨pfn, content, isCalled, apart, apartRest⟩
  refine represents.move_outside safe rfl ?_ (fun _ => SameView.refl _) (fun _ _ => rfl)
    (by simp [isPc]) ⟨pfn, content, isCalled, apart, fun write isWrite =>
      apartRest write (List.mem_cons_of_mem _ isWrite)⟩
  refine fun mm => ⟨rfl, ?_⟩
  intro other isOwn
  refine Function.update_of_ne ?_ ..
  rintro rfl
  have isFree : owner other = none := apartRest _ List.mem_cons_self
  rw [isFree] at isOwn
  contradiction

/-- The object answers every step of the device. -/
theorem Represents.answers {action : Action Thread}
    (represents : Represents cfg owner device object)
    (undisturbed : Undisturbed cfg owner device action)
    (stepped : step cfg device action = some after) :
    Answers (Object.step cfg) (Represents cfg owner after) object (moment device action) := by
  have safe := represents.safe.step stepped
  cases action with
  | call thread command =>
      simp only [step] at stepped
      split at stepped
      · next isPc =>
        rw [Option.some.injEq] at stepped
        have isIdle := represents.follows thread
        rw [isPc] at isIdle
        have isIdle : object.phase thread = .idle := isIdle
        rw [← stepped] at safe ⊢
        exact ⟨_, by simp only [Object.step, isIdle], represents.call undisturbed isPc safe⟩
      · contradiction
  | returns thread =>
      simp only [step] at stepped
      split at stepped
      · next answer isPc =>
        rw [Option.some.injEq] at stepped
        have isAnswered := represents.follows thread
        rw [isPc] at isAnswered
        have isAnswered : object.phase thread = .answered answer := isAnswered
        rw [← stepped] at safe ⊢
        refine ⟨object.goto thread .idle, by simp only [Object.step, isAnswered], ?_⟩
        exact represents.move_outside safe rfl (fun _ => SameView.refl _)
          (fun _ => SameView.refl _) (fun other distinct => object.goto_phase_of_ne distinct _)
          (by simp [isPc]) (object.goto_phase_self _)
      · contradiction
  | tick thread =>
      have follows := represents.follows thread
      rcases tick_cases represents.safe stepped with
        ⟨command, answer, isPc, rfl⟩ | ⟨command, mm, sem, isPc, acquired, rfl⟩ |
        ⟨command, mm, next, isPc, rfl⟩ | ⟨command, mm, body, view, body', isPc, isStep, rfl⟩ |
        ⟨mm, user, vm, isPc, rfl⟩ | ⟨mm, user, vm, level, rest, isPc, rfl⟩ |
        ⟨mm, sem, isPc, acquired, rfl⟩ | ⟨isPc, rfl⟩ | ⟨address, entry, rest, isPc, rfl⟩
      all_goals rw [isPc] at follows
      · simp only [moment, isPc]
        rcases represents.refuses isPc safe with ⟨acts, after⟩
        exact ⟨_, by simp only [Object.step, follows.1, acts], after⟩
      · simp only [moment, isPc]
        exact represents.enters isPc acquired safe
      · simp only [moment, isPc]
        rcases represents.leaves isPc safe with ⟨object', acts, after⟩
        exact ⟨object', by simp only [Object.step, follows.1, acts], after⟩
      · have notLeave : moment device (.tick thread) = none := by
          simp only [moment, isPc]
          cases body with
          | leave next => simp [bodyStep] at isStep
          | _ => rfl
        rw [notLeave]
        exact represents.works undisturbed isPc isStep safe
      · simp only [moment, isPc]
        exact represents.move_outside safe rfl (fun _ => SameView.refl _)
          (fun _ => SameView.refl _) (fun _ _ => rfl) (by simp [isPc]) follows.1
      · simp only [moment, isPc]
        exact represents.move_outside safe rfl (fun _ => SameView.refl _)
          (fun _ => SameView.refl _) (fun _ _ => rfl) (by simp [isPc]) follows
      · simp only [moment, isPc]
        exact represents.move_outside safe rfl (fun _ => SameView.refl _)
          (fun _ => SameView.refl _) (fun _ _ => rfl) (by simp [isPc]) follows
      · simp only [moment, isPc]
        rcases represents.writes isPc safe with ⟨command, object', isCalled, acts, after⟩
        exact ⟨object', by simp only [Object.step, isCalled, acts], after⟩
      · simp only [moment, isPc]
        exact represents.writesEntry isPc safe

end

/-- For every division of the entries among the processes and every run in which the walks look at
entries of their own process, no page with such entries is overwritten and no entry is written
while entries of the same process are copied: the requests are single steps of the object, at the
moments at which they give the semaphore back; every answer is that of its step, and a process
whose tables nobody changes has the root and the entries that it has in the object. -/
theorem requests_are_atomic (owner : ℕ → Option Mm) {entries : ℕ → Entry} {pgd : Mm → ℕ}
    {past : History (Device Thread Mm) (Action Thread)} {device : Device Thread Mm}
    (run : Run (step cfg) (start entries pgd) past device)
    (undisturbed : Guarded (Undisturbed cfg owner) past) :
    ∃ trace object, Run (Object.step cfg) (Object.start entries pgd) trace object ∧
      trace.map Prod.snd = labels moment past ∧
      (∀ thread answer, device.pc thread = .done answer →
        object.phase thread = .answered answer) ∧
      ∀ mm, device.Quiet mm → device.pgd mm = object.pgd mm ∧
        ∀ address, owner address = some mm → device.entries address = object.entries address := by
  rcases run.simulation (Object.step cfg) (Undisturbed cfg owner) moment (Represents cfg owner)
      (represents_start entries pgd)
      (fun represents allowed stepped => represents.answers allowed stepped) undisturbed with
    ⟨trace, object, objectRun, trace_eq, represents⟩
  refine ⟨trace, object, objectRun, trace_eq, ?_, ?_⟩
  · intro thread answer isDone
    have follows := represents.follows thread
    rw [isDone] at follows
    exact follows
  · intro mm quiet
    have same := represents.quiet mm quiet
    exact ⟨same.pgd, fun _ => same.entries⟩

/-- The process whose entries a thread still copies. -/
def Pc.copies : Pc Mm → Option Mm
  | .toUser mm _ _ _ => some mm
  | _ => none

/-- The condition on a step as a test, for finitely many threads. -/
def isUndisturbed [Fintype Thread] (cfg : Config Thread Mm) (owner : ℕ → Option Mm)
    (device : Device Thread Mm) : Action Thread → Bool
  | .tick thread =>
      match device.pc thread with
      | .inside command mm _ (.walk (some level, vm)) =>
          (lookAt cfg.kernel (device.view mm) command.vaddr vm level).all
            (fun address => owner address = some mm)
      | .inside _ mm _ (.write (_ :: _)) => decide (∀ other, (device.pc other).copies ≠ some mm)
      | _ => true
  | .call _ (.writePage pfn content) =>
      (pageWrites pfn content).all (fun write => owner write.1 = none)
  | _ => true

omit [DecidableEq Thread] in
theorem Undisturbed.of_test [Fintype Thread] {device : Device Thread Mm} {action : Action Thread}
    (passes : isUndisturbed cfg owner device action = true) :
    Undisturbed cfg owner device action := by
  cases action with
  | tick thread =>
      constructor
      · intro command mm lock level vm isPc address looks
        simp only [isUndisturbed, isPc, looks, Option.all_some, decide_eq_true_eq] at passes
        exact passes
      · intro command mm lock address entry rest isPc other user vm levels isOther
        simp only [isUndisturbed, isPc, decide_eq_true_eq] at passes
        apply passes other
        rw [isOther, Pc.copies]
  | call thread command =>
      cases command with
      | writePage pfn content =>
          simp only [isUndisturbed, List.all_eq_true, decide_eq_true_eq] at passes
          exact passes
      | _ => trivial
  | returns thread => trivial

/-- The record that a thread has got. -/
def Pc.record : Pc Mm → Option PteditEntry
  | .done (.resolved user) => some user
  | _ => none

omit [DecidableEq Mm] in
theorem Pc.eq_done_of_record {pc : Pc Mm} {user : PteditEntry} (isRecord : pc.record = some user) :
    pc = .done (.resolved user) := by
  unfold Pc.record at isRecord
  split at isRecord
  · rw [Option.some.injEq] at isRecord
    rw [isRecord]
  · contradiction

/-- Two processes with tables of their own, in the frames `1` to `4` and `17` to `20`. -/
def twoProcesses : Config Bool Bool where
  kernel := x86Kernel
  getMm _ pid := some (pid != 0)
  activeMm thread := thread

def eightTables (address : ℕ) : Entry :=
  if address % 4096 = 0 ∧ address / 4096 % 16 < 5 then
    BitVec.ofNat 64 ((address / 4096 + 1) * 4096 + 7)
  else 0

def twoRoots (mm : Bool) : ℕ :=
  if mm then 0x11000 else 0x1000

/-- The frames below `16` belong to the first process. -/
def lowerHalf (address : ℕ) : Option Bool :=
  some (decide (0x10000 ≤ address))

/-- One thread updates two levels of its process while the other one resolves an address of the
other process. -/
theorem resolve_during_update :
    ∃ (past : _) (device : Device Bool Bool) (trace : _) (object : _) (user : PteditEntry),
      Run (step twoProcesses) (start eightTables twoRoots) past device ∧
      device.pc true = .done (.resolved user) ∧ user.pmd = 0x14007 ∧ user.pte = 0x15007 ∧
      device.entries 0x3000 = 0x76007 ∧ device.entries 0x4000 = 0x77007 ∧
      Run (Object.step twoProcesses) (Object.start eightTables twoRoots) trace object ∧
      trace.map Prod.snd = labels moment past ∧
      object.phase true = .answered (.resolved user) := by
  have exhibited := Run.exists_of_perform (step twoProcesses) (start eightTables twoRoots)
    (.call true (.vmResolve ⟨1, 0, 0, 0, 0, 0, 0, 0⟩) ::
      .call false (.vmUpdate ⟨0, 0, 0, 0, 0, 0x76007, 0x77007, 24⟩) ::
        (List.replicate 10 [.tick true, .tick false]).flatten ++ List.replicate 4 (.tick true))
    (fun past device =>
      past.all (fun moment => isUndisturbed twoProcesses lowerHalf moment.1 moment.2) &&
      (device.pc true).record.any (fun user => user.pmd = 0x14007 ∧ user.pte = 0x15007) &&
      device.entries 0x3000 = 0x76007 && device.entries 0x4000 = 0x77007)
    (by decide +kernel)
  rcases exhibited with ⟨past, device, run, passes⟩
  simp only [Bool.and_eq_true, List.all_eq_true, decide_eq_true_eq] at passes
  rcases passes with ⟨⟨⟨allowed, isRecord⟩, isPmd⟩, isPte⟩
  rw [Option.any_eq_true] at isRecord
  rcases isRecord with ⟨user, isRecord, isUser⟩
  rw [decide_eq_true_eq] at isUser
  have isDone := Pc.eq_done_of_record isRecord
  rcases requests_are_atomic lowerHalf run (fun moment older => .of_test (allowed moment older))
    with ⟨trace, object, objectRun, trace_eq, answers, -⟩
  exact ⟨past, device, trace, object, user, run, isDone, isUser.1, isUser.2, isPmd, isPte,
    objectRun, trace_eq, answers true _ isDone⟩

/-- Without the condition a record may be torn: its third level is from before an update of two
levels, and its last level from after it. -/
example :
    ∃ (past : _) (device : Device Bool Unit),
      Run (step twoThreads) (start fourTables firstRoot) past device ∧
      (device.pc false).record.any (fun user => user.pmd = 0x4007 ∧ user.pte = 0x77007) := by
  exact Run.exists_of_perform (step twoThreads) (start fourTables firstRoot)
    (.call false (.vmResolve ⟨0, 0, 0, 0, 0, 0, 0, 0⟩) :: List.replicate 12 (.tick false) ++
      .call true (.vmUpdate ⟨0, 0, 0, 0, 0, 0x76007, 0x77007, 24⟩) ::
        (List.replicate 11 (.tick true) ++ List.replicate 2 (.tick false)))
    (fun _ device =>
      (device.pc false).record.any (fun user => user.pmd = 0x4007 ∧ user.pte = 0x77007))
    (by decide +kernel)

end UserLevelMmap.Pteditor
