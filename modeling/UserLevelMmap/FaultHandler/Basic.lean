import UserLevelMmap.Library.Run
import UserLevelMmap.PageTable.Walk

/-!
# The page-fault handler

`page_fault_handler` (`src/user_level_mmap.cc`) runs once for every region that
`ul_mmap` has created. This file embeds it as a transition system over any number of
handlers and any number of application threads, with physical memory as bytes. One
iteration of a handler is six steps: read a message, obtain and fill `given_page`, look
up its frame, resolve the fault address, update the page table, and wake the thread.

The message buffer of the handler is a function-local `static`, hence one buffer for
all handlers: each step after the read takes the address from the buffer again.

A userfaultfd that was opened without features delivers page-fault messages only, so a
message is its fault address.
-/

namespace UserLevelMmap.FaultHandler

open PageTable

/-- `PAGE_SIZE`. -/
def pageSize : ℕ := 4096

/-- The arguments of a handler, `PFhandle_args`, and the length of its region. The file
behind `fd` is `none` for `fd == -1`; `mmap` and `UFFDIO_REGISTER` accept multiples of the
page size only. -/
structure Region where
  fd : Option (List (BitVec 8))
  offset : ℕ
  baseAddr : ℕ
  length : ℕ
  offset_aligned : offset % pageSize = 0
  base_aligned : baseAddr % pageSize = 0
  length_aligned : length % pageSize = 0
  offset_fits : offset + length ≤ 2 ^ 63
  inUserSpace : baseAddr + length ≤ 2 ^ 47

/-- The address is in the region. -/
def Region.Contains (region : Region) (address : ℕ) : Prop :=
  region.baseAddr ≤ address ∧ address < region.baseAddr + region.length

instance (region : Region) (address : ℕ) : Decidable (region.Contains address) :=
  inferInstanceAs (Decidable (_ ∧ _))

/-! ## Filling the given page -/

/-- `pread` of `count` bytes; `none` is the result `-1` for a negative offset. -/
def pread (file : List (BitVec 8)) (count offset : ℕ) : Option (List (BitVec 8)) :=
  if offset < 2 ^ 63 then some ((file.drop offset).take count) else none

/-- The letter with which an anonymous page is filled. -/
def fillLetter (faultCnt : ℕ) : BitVec 8 :=
  BitVec.ofNat 8 (65 + faultCnt % 26)

/-- The file offset of `pread`, in the unsigned arithmetic of `__u64`. -/
def Region.fileOffset (region : Region) (address : ℕ) : ℕ :=
  let regionOffset := (address + 2 ^ 64 - region.baseAddr) % 2 ^ 64
  (region.offset + regionOffset) % 2 ^ 64

/-- The bytes that go to `given_page`, or `none` when `assert(bytes_read == PAGE_SIZE)` fails. -/
def Region.fillBytes (region : Region) (faultCnt address : ℕ) : Option (List (BitVec 8)) :=
  match region.fd with
  | none => some (List.replicate pageSize (fillLetter faultCnt))
  | some file =>
      (pread file pageSize (region.fileOffset address)).filter
        (fun bytes => bytes.length = pageSize)

theorem Region.fillBytes_length {region : Region} {faultCnt address : ℕ}
    {bytes : List (BitVec 8)} (filled : region.fillBytes faultCnt address = some bytes) :
    bytes.length = pageSize := by
  unfold Region.fillBytes at filled
  split at filled
  · rw [Option.some.injEq] at filled
    rw [← filled, List.length_replicate]
  · rw [Option.filter_eq_some_iff] at filled
    exact of_decide_eq_true filled.2

/-! ## Access through the page tables -/

/-- The physical address of a mapped virtual address. -/
def physical (mem : Bytes) (root address : ℕ) : Option ℕ :=
  (translate mem root address).map (fun frame => frame * pageSize + address % pageSize)

/-- A load by a thread of the process. -/
def loadByte (mem : Bytes) (root address : ℕ) : Option (BitVec 8) :=
  (physical mem root address).map mem

/-- A store by a thread of the process; a store to a missing page has no effect here. -/
def storeByte (mem : Bytes) (root address : ℕ) (byte : BitVec 8) : Bytes :=
  match physical mem root address with
  | some place => Function.update mem place byte
  | none => mem

/-- Stores to consecutive addresses. -/
def storeBytes (root : ℕ) : Bytes → ℕ → List (BitVec 8) → Bytes
  | mem, _, [] => mem
  | mem, address, byte :: rest =>
      storeBytes root (storeByte mem root address byte) (address + 1) rest

/-! ## Editing the page table -/

/-- The entry that the handler passes to `ptedit_update`. -/
def editedEntry (vm : PteditEntry) (givenPagePfn : BitVec 64) : PteditEntry :=
  { vm with pte := installedEntry vm.pte givenPagePfn, valid := pteditValidMaskPte }

/-- The part of an iteration between the fill and the wake: look up the frame of
`given_page`, resolve the fault address, and update its entry. -/
def install (root : ℕ) (mem : Bytes) (address givenPage : ℕ) : Bytes :=
  let givenPagePfn := pteditPteGetPfn (ownRoot root) mem givenPage 0
  let vm := pteditResolve (ownRoot root) mem address 0
  pteditUpdate (ownRoot root) mem address 0 (editedEntry vm givenPagePfn)

/-- The memory part of one undisturbed iteration. -/
def iteration (root : ℕ) (region : Region) (faultCnt address givenPage : ℕ) (mem : Bytes) :
    Option Bytes :=
  (region.fillBytes faultCnt address).map
    (fun bytes => install root (storeBytes root mem givenPage bytes) address givenPage)

/-! ## The handlers of a process -/

/-- The regions of a process, its paging root and its heap. -/
structure Setup (Id : Type) where
  root : ℕ
  region : Id → Region
  /-- The page number is one of the heap. -/
  isHeap : ℕ → Bool

/-- The next step of a handler, with its live locals. -/
inductive Pc where
  /-- Wait in `poll` and read a message. -/
  | polling
  /-- Obtain `given_page` and fill it. -/
  | received
  /-- Look up the frame of `given_page`. -/
  | filled (givenPage : ℕ)
  /-- Resolve the fault address and edit the entry. -/
  | located (givenPagePfn : BitVec 64)
  /-- Update the page table. -/
  | resolved (vm : PteditEntry)
  /-- Wake the faulting thread. -/
  | updated

/-- The shared state of the process. -/
structure Process (Id : Type) where
  mem : Bytes
  /-- The address in `static struct uffd_msg msg`. -/
  msg : ℕ
  pc : Id → Pc
  faultCnt : Id → ℕ
  /-- The messages that wait in the userfaultfd of each region. -/
  queue : Id → List ℕ
  /-- The blocks that `malloc` has returned to the handlers. -/
  blocks : List ℕ
  /-- An assertion has failed. -/
  aborted : Bool

/-- The steps of the handlers, of the kernel and of the application. -/
inductive Action (Id : Type) where
  /-- A thread faults on a missing page and the kernel queues a message. -/
  | fault (id : Id) (address : ℕ)
  | read (id : Id) (address : ℕ)
  | fill (id : Id) (givenPage : ℕ)
  | getPfn (id : Id)
  | resolve (id : Id)
  | update (id : Id)
  | wake (id : Id)
  /-- A thread stores a byte to a page of a region. -/
  | store (id : Id) (address : ℕ) (byte : BitVec 8)
  deriving DecidableEq

variable {Id : Type} [DecidableEq Id]

/-- What `malloc(PAGE_SIZE)` promises: an aligned block of the heap that is disjoint from
the blocks returned before, none of which is ever freed. -/
def Setup.Mallocs (setup : Setup Id) (blocks : List ℕ) (givenPage : ℕ) : Prop :=
  givenPage % 16 = 0 ∧ setup.isHeap (givenPage / pageSize) = true ∧
    setup.isHeap ((givenPage + (pageSize - 1)) / pageSize) = true ∧
    ∀ block ∈ blocks, block + pageSize ≤ givenPage ∨ givenPage + pageSize ≤ block

omit [DecidableEq Id] in
instance (setup : Setup Id) (blocks : List ℕ) (givenPage : ℕ) :
    Decidable (setup.Mallocs blocks givenPage) :=
  inferInstanceAs (Decidable (_ ∧ _))

/-- The process before the first fault. -/
def start (mem : Bytes) : Process Id where
  mem := mem
  msg := 0
  pc _ := .polling
  faultCnt _ := 0
  queue _ := []
  blocks := []
  aborted := false

def Process.goto (process : Process Id) (id : Id) (pc : Pc) : Process Id :=
  { process with pc := Function.update process.pc id pc }

/-- The transition function of the process. -/
def step (setup : Setup Id) : Transition (Process Id) (Action Id) :=
  fun process action =>
    if process.aborted then none
    else
      match action with
      | .fault id address =>
          if (setup.region id).Contains address then
            some { process with
              queue := Function.update process.queue id (process.queue id ++ [address]) }
          else none
      | .read id address =>
          match process.pc id with
          | .polling =>
              if address ∈ process.queue id then
                some { process with
                  msg := address
                  pc := Function.update process.pc id .received
                  queue := Function.update process.queue id ((process.queue id).erase address) }
              else none
          | _ => none
      | .fill id givenPage =>
          match process.pc id with
          | .received =>
              if setup.Mallocs process.blocks givenPage then
                match (setup.region id).fillBytes (process.faultCnt id) process.msg with
                | some bytes =>
                    some { process with
                      mem := storeBytes setup.root process.mem givenPage bytes
                      pc := Function.update process.pc id (.filled givenPage)
                      faultCnt := Function.update process.faultCnt id (process.faultCnt id + 1)
                      blocks := givenPage :: process.blocks }
                | none => some { process with aborted := true }
              else none
          | _ => none
      | .getPfn id =>
          match process.pc id with
          | .filled givenPage =>
              some (process.goto id
                (.located (pteditPteGetPfn (ownRoot setup.root) process.mem givenPage 0)))
          | _ => none
      | .resolve id =>
          match process.pc id with
          | .located givenPagePfn =>
              some (process.goto id (.resolved (editedEntry
                (pteditResolve (ownRoot setup.root) process.mem process.msg 0) givenPagePfn)))
          | _ => none
      | .update id =>
          match process.pc id with
          | .resolved vm =>
              some { process with
                mem := pteditUpdate (ownRoot setup.root) process.mem process.msg 0 vm
                pc := Function.update process.pc id .updated }
          | _ => none
      | .wake id =>
          match process.pc id with
          | .updated => some (process.goto id .polling)
          | _ => none
      | .store id address byte =>
          if (setup.region id).Contains address ∧
              (translate process.mem setup.root address).isSome then
            some { process with mem := storeByte process.mem setup.root address byte }
          else none

/-- Everything a step can do, with its enabling condition. -/
inductive Effect (setup : Setup Id) (process : Process Id) : Action Id → Process Id → Prop where
  | fault (id : Id) (address : ℕ) (contains : (setup.region id).Contains address) :
      Effect setup process (.fault id address) { process with
        queue := Function.update process.queue id (process.queue id ++ [address]) }
  | read (id : Id) (address : ℕ) (at_pc : process.pc id = .polling)
      (queued : address ∈ process.queue id) :
      Effect setup process (.read id address) { process with
        msg := address
        pc := Function.update process.pc id .received
        queue := Function.update process.queue id ((process.queue id).erase address) }
  | fill (id : Id) (givenPage : ℕ) (bytes : List (BitVec 8)) (at_pc : process.pc id = .received)
      (mallocs : setup.Mallocs process.blocks givenPage)
      (filled : (setup.region id).fillBytes (process.faultCnt id) process.msg = some bytes) :
      Effect setup process (.fill id givenPage) { process with
        mem := storeBytes setup.root process.mem givenPage bytes
        pc := Function.update process.pc id (.filled givenPage)
        faultCnt := Function.update process.faultCnt id (process.faultCnt id + 1)
        blocks := givenPage :: process.blocks }
  | abort (id : Id) (givenPage : ℕ) (at_pc : process.pc id = .received)
      (fails : (setup.region id).fillBytes (process.faultCnt id) process.msg = none) :
      Effect setup process (.fill id givenPage) { process with aborted := true }
  | getPfn (id : Id) (givenPage : ℕ) (at_pc : process.pc id = .filled givenPage) :
      Effect setup process (.getPfn id) (process.goto id
        (.located (pteditPteGetPfn (ownRoot setup.root) process.mem givenPage 0)))
  | resolve (id : Id) (givenPagePfn : BitVec 64) (at_pc : process.pc id = .located givenPagePfn) :
      Effect setup process (.resolve id) (process.goto id (.resolved (editedEntry
        (pteditResolve (ownRoot setup.root) process.mem process.msg 0) givenPagePfn)))
  | update (id : Id) (vm : PteditEntry) (at_pc : process.pc id = .resolved vm) :
      Effect setup process (.update id) { process with
        mem := pteditUpdate (ownRoot setup.root) process.mem process.msg 0 vm
        pc := Function.update process.pc id .updated }
  | wake (id : Id) (at_pc : process.pc id = .updated) :
      Effect setup process (.wake id) (process.goto id .polling)
  | store (id : Id) (address : ℕ) (byte : BitVec 8)
      (contains : (setup.region id).Contains address)
      (mapped : (translate process.mem setup.root address).isSome) :
      Effect setup process (.store id address byte) { process with
        mem := storeByte process.mem setup.root address byte }

theorem step_effect {setup : Setup Id} {process after : Process Id} {action : Action Id}
    (stepped : step setup process action = some after) : Effect setup process action after := by
  unfold step at stepped
  split at stepped
  · contradiction
  · split at stepped
    · simp only [Option.ite_none_right_eq_some, Option.some.injEq] at stepped
      rcases stepped with ⟨contains, rfl⟩
      exact .fault _ _ contains
    · split at stepped
      · next at_pc =>
          simp only [Option.ite_none_right_eq_some, Option.some.injEq] at stepped
          rcases stepped with ⟨queued, rfl⟩
          exact .read _ _ at_pc queued
      · contradiction
    · split at stepped
      · next at_pc =>
          simp only [Option.ite_none_right_eq_some] at stepped
          rcases stepped with ⟨mallocs, stepped⟩
          split at stepped
          · next bytes filled =>
              simp only [Option.some.injEq] at stepped
              subst after
              exact .fill _ _ bytes at_pc mallocs filled
          · next fails =>
              simp only [Option.some.injEq] at stepped
              subst after
              exact .abort _ _ at_pc fails
      · contradiction
    · split at stepped
      · next givenPage at_pc =>
          simp only [Option.some.injEq] at stepped
          subst after
          exact .getPfn _ givenPage at_pc
      · contradiction
    · split at stepped
      · next givenPagePfn at_pc =>
          simp only [Option.some.injEq] at stepped
          subst after
          exact .resolve _ givenPagePfn at_pc
      · contradiction
    · split at stepped
      · next vm at_pc =>
          simp only [Option.some.injEq] at stepped
          subst after
          exact .update _ vm at_pc
      · contradiction
    · split at stepped
      · next at_pc =>
          simp only [Option.some.injEq] at stepped
          subst after
          exact .wake _ at_pc
      · contradiction
    · simp only [Option.ite_none_right_eq_some, Option.some.injEq] at stepped
      rcases stepped with ⟨⟨contains, mapped⟩, rfl⟩
      exact .store _ _ _ contains mapped

theorem step_queued {setup : Setup Id} {process after : Process Id} {action : Action Id}
    (stepped : step setup process action = some after)
    (queued : ∀ {id : Id} {address : ℕ}, address ∈ process.queue id →
      (setup.region id).Contains address)
    {id : Id} {address : ℕ} (mem : address ∈ after.queue id) :
    (setup.region id).Contains address := by
  cases step_effect stepped with
  | fault actor added contains =>
      by_cases isActor : id = actor
      · subst id
        simp only [Function.update_self, List.mem_append, List.mem_singleton] at mem
        rcases mem with mem | rfl
        · exact queued mem
        · exact contains
      · simp only [Function.update_of_ne isActor] at mem
        exact queued mem
  | read actor removed at_pc _ =>
      by_cases isActor : id = actor
      · subst id
        simp only [Function.update_self] at mem
        exact queued (List.mem_of_mem_erase mem)
      · simp only [Function.update_of_ne isActor] at mem
        exact queued mem
  | _ => exact queued mem

/-- A handler reads a message only while every other handler waits for one, as it is when
iterations are taken one at a time. -/
def ReadsAlone (process : Process Id) : Action Id → Prop
  | .read id _ => ∀ other, other ≠ id → process.pc other = .polling
  | _ => True

/-- The six steps of an undisturbed iteration, from the queued message to the wake, in runs
that are guarded at the read and at the fill. -/
theorem run_iteration {setup : Setup Id} {initial mem' : Bytes}
    {guard : Process Id → Action Id → Prop} {past : History (Process Id) (Action Id)}
    {process : Process Id} (run : Run (step setup) (start initial) past process)
    (guarded : Guarded guard past) (id : Id) (address givenPage : ℕ)
    (running : process.aborted = false) (at_pc : process.pc id = .polling)
    (queued : address ∈ process.queue id) (mallocs : setup.Mallocs process.blocks givenPage)
    (iterated : iteration setup.root (setup.region id) (process.faultCnt id) address givenPage
      process.mem = some mem')
    (allowsRead : guard process (.read id address))
    (allowsFill : ∀ received : Process Id, received.blocks = process.blocks →
      guard received (.fill id givenPage))
    (allowsRest : ∀ state, ∀ action ∈ [.getPfn id, .resolve id, .update id, .wake id],
      guard state action) :
    ∃ recent : History (Process Id) (Action Id),
      recent.map Prod.snd =
        [.wake id, .update id, .resolve id, .getPfn id, .fill id givenPage, .read id address] ∧
      Guarded guard (recent ++ past) ∧ Run (step setup) (start initial) (recent ++ past)
      { mem := mem'
        msg := address
        pc := process.pc
        faultCnt := Function.update process.faultCnt id (process.faultCnt id + 1)
        queue := Function.update process.queue id ((process.queue id).erase address)
        blocks := givenPage :: process.blocks
        aborted := false } := by
  rw [iteration, Option.map_eq_some_iff] at iterated
  rcases iterated with ⟨bytes, filled, rfl⟩
  have polls : Function.update process.pc id .polling = process.pc := by
    rw [← at_pc, Function.update_eq_self]
  let received : Process Id := { process with
    msg := address
    pc := Function.update process.pc id .received
    queue := Function.update process.queue id ((process.queue id).erase address) }
  let written : Process Id := { received with
    mem := storeBytes setup.root process.mem givenPage bytes
    pc := Function.update process.pc id (.filled givenPage)
    faultCnt := Function.update process.faultCnt id (process.faultCnt id + 1)
    blocks := givenPage :: process.blocks }
  let givenPagePfn := pteditPteGetPfn (ownRoot setup.root) written.mem givenPage 0
  let vm := editedEntry (pteditResolve (ownRoot setup.root) written.mem address 0) givenPagePfn
  let installed : Process Id := { written with
    mem := pteditUpdate (ownRoot setup.root) written.mem address 0 vm
    pc := Function.update process.pc id .updated }
  have reads : step setup process (.read id address) = some received := by
    simp [step, running, at_pc, queued, received]
  have fills : step setup received (.fill id givenPage) = some written := by
    simp [step, running, mallocs, filled, received, written]
  have locates : step setup written (.getPfn id) =
      some (written.goto id (.located givenPagePfn)) := by
    simp [step, running, received, written, givenPagePfn]
  have resolves : step setup (written.goto id (.located givenPagePfn)) (.resolve id) =
      some (written.goto id (.resolved vm)) := by
    simp [step, running, received, written, givenPagePfn, vm, Process.goto]
  have updates : step setup (written.goto id (.resolved vm)) (.update id) = some installed := by
    simp [step, running, received, written, installed, Process.goto]
  have runUpdate := ((((run.step reads).step fills).step locates).step resolves).step updates
  refine ⟨[(installed, .wake id), (written.goto id (.resolved vm), .update id),
    (written.goto id (.located givenPagePfn), .resolve id), (written, .getPfn id),
    (received, .fill id givenPage), (process, .read id address)], rfl, ?_, runUpdate.step ?_⟩
  · intro moment mem
    simp only [List.cons_append, List.nil_append, List.mem_cons] at mem
    rcases mem with rfl | rfl | rfl | rfl | rfl | rfl | mem
    · apply allowsRest _ _
      simp
    · apply allowsRest _ _
      simp
    · apply allowsRest _ _
      simp
    · apply allowsRest _ _
      simp
    · exact allowsFill received rfl
    · exact allowsRead
    · exact guarded moment mem
  · simp [step, running, received, written, installed, Process.goto, polls, install, vm,
      givenPagePfn]

/-- What a handler does that others can see. -/
inductive Event where
  | reads (address : ℕ)
  | fills (bytes : List (BitVec 8))
  | updates (address : ℕ)
  /-- `UFFDIO_WAKE` of the range that starts with `start`. -/
  | wakes (start len : ℕ)
  deriving DecidableEq

/-- The event of a step in the handler of a region. -/
def event (setup : Setup Id) (id : Id) (process : Process Id) : Action Id → Option Event
  | .read actor address => if actor = id then some (.reads address) else none
  | .fill actor _ =>
      if actor = id then
        ((setup.region id).fillBytes (process.faultCnt id) process.msg).map .fills
      else none
  | .update actor => if actor = id then some (.updates process.msg) else none
  | .wake actor =>
      if actor = id then some (.wakes (process.msg / pageSize * pageSize) pageSize) else none
  | _ => none

end UserLevelMmap.FaultHandler
