import UserLevelMmap.Library.Run
import UserLevelMmap.Library.Rwsem
import UserLevelMmap.PageTable.Walk

/-!
# The device of the kernel module

The requests of `src/PTEditor/module/pteditor.c` that walk, change or protect the page
tables of a process, as `device_ioctl` serves them for any number of threads: one step is
one access to an entry, to `mm->pgd`, to `mm_is_locked` or to the semaphore of an
`mm_struct`. The page tables of all processes are in one memory. Two of them share tables
when their roots or entries lead to the same addresses, and `WRITE_PAGE` writes to any
frame without a semaphore.

What the kernel provides is a parameter: the functions that find the entry of a level and
those that tell what an entry is, and the `mm_struct` of a process.
-/

namespace UserLevelMmap.Pteditor

open PageTable

/-! ## Page tables in the kernel -/

/-- A level of the page tables. -/
inductive Level where
  | pgd
  | p4d
  | pud
  | pmd
  | pte
  deriving DecidableEq, Repr

/-- The bit of a level in `valid`. -/
def Level.mask : Level → BitVec 64
  | .pgd => pteditValidMaskPgd
  | .p4d => pteditValidMaskP4d
  | .pud => pteditValidMaskPud
  | .pmd => pteditValidMaskPmd
  | .pte => pteditValidMaskPte

/-- The macros of Linux for page tables. The functions that find the entry of the next level
get the address of an entry, its value and the virtual address. -/
structure Kernel where
  pgdOffset : ℕ → ℕ → ℕ
  p4dOffset : ℕ → Entry → ℕ → ℕ
  pudOffset : ℕ → Entry → ℕ → ℕ
  pmdOffset : ℕ → Entry → ℕ → ℕ
  pteOffsetMap : ℕ → Entry → ℕ → Option ℕ
  pgdNone : Entry → Bool
  pgdBad : Entry → Bool
  p4dNone : Entry → Bool
  p4dBad : Entry → Bool
  pudNone : Entry → Bool
  pudLarge : Entry → Bool
  pmdNone : Entry → Bool
  pmdLarge : Entry → Bool

/-- What a request for an `mm_struct` sees: `mm->pgd`, and the memory with the page tables of all
processes, as entries by address. -/
structure View where
  pgd : ℕ
  entries : ℕ → Entry

/-- `vm_t`, with the addresses of the entries. -/
structure Vm where
  pointer : Level → Option ℕ
  valid : BitVec 64

/-- A `vm_t` after the first lines of `resolve_vm`. -/
def Vm.empty : Vm where
  pointer := fun _ => none
  valid := 0

/-- The entry of a level was found. -/
def Vm.found (vm : Vm) (level : Level) (address : ℕ) : Vm where
  pointer := Function.update vm.pointer level (some address)
  valid := vm.valid ||| level.mask

/-- One level of `resolve_vm`. The first component is the level that comes next, or `none`
at the end. -/
def resolveStep (kernel : Kernel) (view : View) (addr : ℕ) :
    Option Level × Vm → Option Level × Vm
  | (none, vm) => (none, vm)
  | (some .pgd, vm) =>
      let pgd := kernel.pgdOffset view.pgd addr
      if kernel.pgdNone (view.entries pgd) || kernel.pgdBad (view.entries pgd) then (none, vm)
      else (some .p4d, vm.found .pgd pgd)
  | (some .p4d, vm) =>
      match vm.pointer .pgd with
      | none => (none, vm)
      | some pgd =>
          let p4d := kernel.p4dOffset pgd (view.entries pgd) addr
          if kernel.p4dNone (view.entries p4d) || kernel.p4dBad (view.entries p4d) then
            (none, vm)
          else (some .pud, vm.found .p4d p4d)
  | (some .pud, vm) =>
      match vm.pointer .p4d with
      | none => (none, vm)
      | some p4d =>
          let pud := kernel.pudOffset p4d (view.entries p4d) addr
          if kernel.pudNone (view.entries pud) then (none, vm)
          else (some .pmd, vm.found .pud pud)
  | (some .pmd, vm) =>
      match vm.pointer .pud with
      | none => (none, vm)
      | some pud =>
          let pmd := kernel.pmdOffset pud (view.entries pud) addr
          if kernel.pmdNone (view.entries pmd) || kernel.pudLarge (view.entries pud) then
            (none, vm)
          else (some .pte, vm.found .pmd pmd)
  | (some .pte, vm) =>
      match vm.pointer .pmd with
      | none => (none, vm)
      | some pmd =>
          match kernel.pteOffsetMap pmd (view.entries pmd) addr with
          | none => (none, vm)
          | some pte =>
              if kernel.pmdLarge (view.entries pmd) then (none, vm)
              else (none, vm.found .pte pte)

/-- `resolve_vm`, between its two uses of the semaphore. -/
def resolveVm (kernel : Kernel) (view : View) (addr : ℕ) : Vm :=
  ((resolveStep kernel view addr)^[5] (some .pgd, Vm.empty)).2

/-- The entry of a level in a record of the user. -/
def entryOf (user : PteditEntry) : Level → Entry
  | .pgd => user.pgd
  | .p4d => user.p4d
  | .pud => user.pud
  | .pmd => user.pmd
  | .pte => user.pte

/-- A record with another entry of a level. -/
def setEntry (user : PteditEntry) (level : Level) (entry : Entry) : PteditEntry :=
  match level with
  | .pgd => { user with pgd := entry }
  | .p4d => { user with p4d := entry }
  | .pud => { user with pud := entry }
  | .pmd => { user with pmd := entry }
  | .pte => { user with pte := entry }

/-- The writes of `update_vm`, in their order. -/
def updateWrites (old : Vm) (new : PteditEntry) : List (ℕ × Entry) :=
  [Level.pgd, .p4d, .pud, .pmd, .pte].filterMap (fun level =>
    if old.valid &&& level.mask ≠ 0 ∧ new.valid &&& level.mask ≠ 0 then
      (old.pointer level).map (fun address => (address, entryOf new level))
    else none)

/-- The levels in the order in which `vm_to_user` reads them. -/
def userLevels : List Level :=
  [.p4d, .pgd, .pmd, .pud, .pte]

/-- One line of `vm_to_user`. -/
def readLevel (entries : ℕ → Entry) (vm : Vm) (user : PteditEntry) (level : Level) :
    PteditEntry :=
  match vm.pointer level with
  | some address => setEntry user level (entries address)
  | none => user

/-- `vm_to_user` from one of its lines on. -/
def vmToUser (entries : ℕ → Entry) (vm : Vm) (levels : List Level) (user : PteditEntry) :
    PteditEntry :=
  { levels.foldl (readLevel entries vm) user with valid := vm.valid }

/-! ## Requests -/

/-- The requests that concern the tables of a process. -/
inductive Command where
  | vmResolve (user : PteditEntry)
  | vmUpdate (user : PteditEntry)
  | vmLock
  | vmUnlock
  | getRoot (pid : ℕ)
  | setRoot (pid root : ℕ)
  | writePage (pfn : ℕ) (content : ℕ → Entry)

/-- What a request returns or copies to the user. -/
inductive Answer where
  | resolved (user : PteditEntry)
  | root (root : ℕ)
  | status (code : ℤ)

/-- What follows when the semaphore has been given back. -/
inductive After where
  | toUser (user : PteditEntry) (vm : Vm)
  | reply (answer : Answer)

/-- Where a thread is between the two uses of the semaphore. -/
inductive Body where
  | walk (progress : Option Level × Vm)
  | write (writes : List (ℕ × Entry))
  | root
  | leave (after : After)

/-- How the request uses the semaphore. -/
def Command.mode : Command → Mode
  | .vmResolve _ | .getRoot _ => .read
  | _ => .write

/-- The first step of a request under the semaphore. -/
def Command.body : Command → Body
  | .getRoot _ | .setRoot _ _ => .root
  | _ => .walk (some .pgd, Vm.empty)

/-- `GET_ROOT` and `SET_ROOT` look at `mm_is_locked` again before they give the semaphore
back, the other requests keep what they have seen before. -/
def Command.looksAgain : Command → Bool
  | .getRoot _ | .setRoot _ _ => true
  | _ => false

/-- One step under the semaphore. -/
def bodyStep (kernel : Kernel) (view : View) (command : Command) : Body → Option (View × Body)
  | .walk (none, vm) =>
      match command with
      | .vmResolve user => some (view, .leave (.toUser user vm))
      | .vmUpdate user => some (view, .write (updateWrites vm user))
      | _ => none
  | .walk (some level, vm) =>
      match command with
      | .vmResolve user | .vmUpdate user =>
          some (view, .walk (resolveStep kernel view user.vaddr (some level, vm)))
      | _ => none
  | .write [] => some (view, .leave (.reply (.status 0)))
  | .write ((address, entry) :: rest) =>
      some ({ view with entries := Function.update view.entries address entry }, .write rest)
  | .root =>
      match command with
      | .getRoot _ => some (view, .leave (.reply (.root view.pgd)))
      | .setRoot _ root => some ({ view with pgd := root }, .leave (.reply (.status 0)))
      | _ => none
  | .leave _ => none

/-- The writes of `WRITE_PAGE`, in the order of the addresses. -/
def pageWrites (pfn : ℕ) (content : ℕ → Entry) : List (ℕ × Entry) :=
  (List.range 512).map (fun index => (entryAddress pfn index, content index))

/-! ## Threads -/

variable {Thread Mm : Type}

/-- Where a thread is in `device_ioctl`. -/
inductive Pc (Mm : Type) where
  | idle
  | refused (command : Command) (answer : Answer)
  | waiting (command : Command) (mm : Mm) (lock : Bool)
  | inside (command : Command) (mm : Mm) (lock : Bool) (body : Body)
  | toUser (mm : Mm) (user : PteditEntry) (vm : Vm) (levels : List Level)
  | lockWrite (mm : Mm)
  | lockRead (mm : Mm)
  | unlockWrite (mm : Mm)
  | unlockRead (mm : Mm)
  | writePage (writes : List (ℕ × Entry))
  | done (answer : Answer)

/-- The state of the module and of the threads that use it, with the memory in which the page
tables are and the root and the semaphore of every `mm_struct`. -/
structure Device (Thread Mm : Type) where
  entries : ℕ → Entry
  pgd : Mm → ℕ
  sems : Mm → Rwsem Thread
  mmIsLocked : Bool
  pc : Thread → Pc Mm

inductive Action (Thread : Type) where
  | call (thread : Thread) (command : Command)
  | tick (thread : Thread)
  | returns (thread : Thread)

/-- What the kernel tells: `getMm` is `get_mm`, and `activeMm` is `current->active_mm`. -/
structure Config (Thread Mm : Type) where
  kernel : Kernel
  getMm : Thread → ℕ → Option Mm
  activeMm : Thread → Mm

/-- The semaphores are free and no request is being served. -/
def start (entries : ℕ → Entry) (pgd : Mm → ℕ) : Device Thread Mm where
  entries := entries
  pgd := pgd
  sems := fun _ => Rwsem.free
  mmIsLocked := false
  pc := fun _ => .idle

/-- The start of a request that needs the tables of a process, and its answer without them. -/
def enterMm (cfg : Config Thread Mm) (mmIsLocked : Bool) (thread : Thread) (command : Command)
    (pid : ℕ) (answer : Answer) : Pc Mm :=
  match cfg.getMm thread pid with
  | some mm => .waiting command mm (!mmIsLocked)
  | none => .refused command answer

/-- The start of a request. -/
def enter (cfg : Config Thread Mm) (mmIsLocked : Bool) (thread : Thread) : Command → Pc Mm
  | .vmResolve user =>
      enterMm cfg mmIsLocked thread (.vmResolve user) user.pid (.resolved { user with valid := 0 })
  | .vmUpdate user => enterMm cfg mmIsLocked thread (.vmUpdate user) user.pid (.status 0)
  | .vmLock =>
      if mmIsLocked then .refused .vmLock (.status (-1)) else .lockWrite (cfg.activeMm thread)
  | .vmUnlock =>
      if mmIsLocked then .unlockWrite (cfg.activeMm thread) else .refused .vmUnlock (.status (-1))
  | .getRoot pid => enterMm cfg mmIsLocked thread (.getRoot pid) pid (.status 1)
  | .setRoot pid root => enterMm cfg mmIsLocked thread (.setRoot pid root) pid (.status 1)
  | .writePage pfn content => .writePage (pageWrites pfn content)

/-- Where a thread is when it has given the semaphore back. -/
def After.pc (mm : Mm) : After → Pc Mm
  | .toUser user vm => .toUser mm user vm userLevels
  | .reply answer => .done answer

namespace Device

section

variable [DecidableEq Thread] (device : Device Thread Mm)

def goto (thread : Thread) (pc : Pc Mm) : Device Thread Mm :=
  { device with pc := Function.update device.pc thread pc }

theorem goto_pc_self (thread : Thread) (pc : Pc Mm) : (device.goto thread pc).pc thread = pc :=
  Function.update_self ..

theorem goto_pc_of_ne {thread other : Thread} (distinct : other ≠ thread) (pc : Pc Mm) :
    (device.goto thread pc).pc other = device.pc other :=
  Function.update_of_ne distinct ..

@[simp]
theorem sems_goto (thread : Thread) (pc : Pc Mm) : (device.goto thread pc).sems = device.sems :=
  rfl

end

/-- What a request for the process sees. -/
def view (device : Device Thread Mm) (mm : Mm) : View where
  pgd := device.pgd mm
  entries := device.entries

/-- Write an entry. -/
def setEntry (device : Device Thread Mm) (address : ℕ) (entry : Entry) : Device Thread Mm :=
  { device with entries := Function.update device.entries address entry }

variable [DecidableEq Mm] (device : Device Thread Mm)

def setSem (mm : Mm) (sem : Rwsem Thread) : Device Thread Mm :=
  { device with sems := Function.update device.sems mm sem }

@[simp]
theorem sems_setSem (mm : Mm) (sem : Rwsem Thread) :
    (device.setSem mm sem).sems = Function.update device.sems mm sem :=
  rfl

def setView (mm : Mm) (view : View) : Device Thread Mm :=
  { device with
    entries := view.entries
    pgd := Function.update device.pgd mm view.pgd }

@[simp]
theorem view_setView_self (mm : Mm) (view : View) : (device.setView mm view).view mm = view := by
  simp [Device.view, setView]

theorem pgd_setView_of_ne {mm other : Mm} (distinct : other ≠ mm) (view : View) :
    (device.setView mm view).pgd other = device.pgd other :=
  Function.update_of_ne distinct ..

/-- Acquire the semaphore of an `mm_struct`, or wait for it. -/
def acquire (mm : Mm) (mode : Mode) (thread : Thread) : Option (Device Thread Mm) :=
  ((device.sems mm).acquire mode thread).map (device.setSem mm)

theorem acquire_eq_some {device after : Device Thread Mm} {mm : Mm} {mode : Mode}
    {thread : Thread} (acquired : device.acquire mm mode thread = some after) :
    ∃ sem, (device.sems mm).acquire mode thread = some sem ∧ after = device.setSem mm sem := by
  rw [acquire, Option.map_eq_some_iff] at acquired
  rcases acquired with ⟨sem, isSem, rfl⟩
  exact ⟨sem, isSem, rfl⟩

def release [DecidableEq Thread] (mm : Mm) (mode : Mode) (thread : Thread) : Device Thread Mm :=
  device.setSem mm ((device.sems mm).release mode thread)

end Device

variable [DecidableEq Thread] [DecidableEq Mm]

/-- The next step of a thread. -/
def tick (cfg : Config Thread Mm) (device : Device Thread Mm) (thread : Thread) :
    Option (Device Thread Mm) :=
  match device.pc thread with
  | .idle | .done _ => none
  | .refused _ answer => some (device.goto thread (.done answer))
  | .waiting command mm lock =>
      if lock then
        (device.acquire mm command.mode thread).map
          (fun device => device.goto thread (.inside command mm lock command.body))
      else some (device.goto thread (.inside command mm lock command.body))
  | .inside command mm lock (.leave after) =>
      let lock := if command.looksAgain then !device.mmIsLocked else lock
      let device := if lock then device.release mm command.mode thread else device
      some (device.goto thread (after.pc mm))
  | .inside command mm lock body =>
      (bodyStep cfg.kernel (device.view mm) command body).map
        (fun next => (device.setView mm next.1).goto thread (.inside command mm lock next.2))
  | .toUser _ user vm [] =>
      some (device.goto thread (.done (.resolved { user with valid := vm.valid })))
  | .toUser mm user vm (level :: rest) =>
      some (device.goto thread (.toUser mm (readLevel device.entries vm user level) vm rest))
  | .lockWrite mm =>
      (device.acquire mm .write thread).map (fun device => device.goto thread (.lockRead mm))
  | .lockRead mm =>
      (device.acquire mm .read thread).map
        (fun device => { device.goto thread (.done (.status 0)) with mmIsLocked := true })
  | .unlockWrite mm => some ((device.release mm .write thread).goto thread (.unlockRead mm))
  | .unlockRead mm =>
      some { (device.release mm .read thread).goto thread (.done (.status 0)) with
        mmIsLocked := false }
  | .writePage [] => some (device.goto thread (.done (.status 0)))
  | .writePage ((address, entry) :: rest) =>
      some ((device.setEntry address entry).goto thread (.writePage rest))

/-- The steps of the threads that use the device. -/
def step (cfg : Config Thread Mm) : Transition (Device Thread Mm) (Action Thread)
  | device, .call thread command =>
      match device.pc thread with
      | .idle => some (device.goto thread (enter cfg device.mmIsLocked thread command))
      | _ => none
  | device, .tick thread => tick cfg device thread
  | device, .returns thread =>
      match device.pc thread with
      | .done _ => some (device.goto thread .idle)
      | _ => none

end UserLevelMmap.Pteditor
