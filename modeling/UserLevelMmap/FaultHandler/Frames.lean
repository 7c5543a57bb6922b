import UserLevelMmap.FaultHandler.Content

/-!
# Frames of region pages

The buffers of the handler are not aligned to pages: a block of 4096 bytes lies on two
pages of the heap, and the handler installs the frame of the first one. Two disjoint
blocks of this size begin on different pages, so no frame is installed twice. `Serving`
carries this through the steps of the handlers, with the block behind each installed
region page as its witness.
-/

namespace UserLevelMmap.FaultHandler

open PageTable RadixTree

variable {Id : Type} {setup : Setup Id} {heapFrame : ℕ → ℕ}

/-- The block has been returned by `malloc` and is not behind a region page yet. -/
def Spare (process : Process Id) (given : ℕ → Option ℕ) (block : ℕ) : Prop :=
  block ∈ process.blocks ∧ ∀ page, given page ≠ some block

/-- What the locals of a handler hold while no other handler is active. -/
def Pc.Local (setup : Setup Id) (heapFrame : ℕ → ℕ) (process : Process Id)
    (given : ℕ → Option ℕ) (id : Id) : Pc → Prop
  | .polling => True
  | .received => (setup.region id).Contains process.msg
  | .filled givenPage => (setup.region id).Contains process.msg ∧ Spare process given givenPage
  | .located givenPagePfn =>
      (setup.region id).Contains process.msg ∧ ∃ block, Spare process given block ∧
        givenPagePfn.toNat = heapFrame (block / pageSize)
  | .resolved vm =>
      (setup.region id).Contains process.msg ∧ ∃ block, Spare process given block ∧
        vm.valid = pteditValidMaskPte ∧ vm.pte.present = true ∧
        vm.pte.frame = heapFrame (block / pageSize)
  | .updated => (setup.region id).Contains process.msg

theorem Pc.Local.congr {process after : Process Id} {given : ℕ → Option ℕ} {id : Id} {pc : Pc}
    (sameMsg : after.msg = process.msg) (sameBlocks : after.blocks = process.blocks)
    (locals : pc.Local setup heapFrame process given id) :
    pc.Local setup heapFrame after given id := by
  cases pc with
  | polling => trivial
  | _ => simpa only [Pc.Local, Spare, sameMsg, sameBlocks] using locals

/-- The invariant of handlers that take iterations one at a time; `given` is the block behind
each region page that has been installed. -/
structure Serving (setup : Setup Id) (heapFrame : ℕ → ℕ) (process : Process Id)
    (given : ℕ → Option ℕ) : Prop where
  environment : Environment setup heapFrame process.mem
  queued : ∀ {id : Id} {address : ℕ}, address ∈ process.queue id →
    (setup.region id).Contains address
  onHeap : ∀ {block : ℕ}, block ∈ process.blocks → setup.isHeap (block / pageSize) = true
  disjoint : ∀ {block other : ℕ}, block ∈ process.blocks → other ∈ process.blocks →
    block ≠ other → block + pageSize ≤ other ∨ other + pageSize ≤ block
  translated : ∀ {id : Id} {address : ℕ}, (setup.region id).Contains address →
    translate process.mem setup.root address =
      (given (pageOf address)).map (fun block => heapFrame (block / pageSize))
  known : ∀ {page block : ℕ}, given page = some block → block ∈ process.blocks
  once : ∀ {page other block : ℕ}, given page = some block → given other = some block →
    page = other
  alone : ∀ {id other : Id}, process.pc id ≠ .polling → other ≠ id → process.pc other = .polling
  locals : ∀ id, (process.pc id).Local setup heapFrame process given id

namespace Serving

variable {process : Process Id} {given : ℕ → Option ℕ}

theorem block_page_ne (serving : Serving setup heapFrame process given) {block other : ℕ}
    (mem : block ∈ process.blocks) (memOther : other ∈ process.blocks) (distinct : block ≠ other) :
    block / pageSize ≠ other / pageSize := by
  have apart := serving.disjoint mem memOther distinct
  simp only [pageSize] at *
  omega

theorem frame_ne (serving : Serving setup heapFrame process given) {page other block block' : ℕ}
    (isGiven : given page = some block) (isGivenOther : given other = some block')
    (distinct : page ≠ other) :
    heapFrame (block / pageSize) ≠ heapFrame (block' / pageSize) := by
  intro sameFrame
  have mem := serving.known isGiven
  have memOther := serving.known isGivenOther
  have samePage := serving.environment.heapDistinct (serving.onHeap mem) (serving.onHeap memOther)
    sameFrame
  have sameBlock : block = block' := by
    by_contra distinctBlocks
    exact serving.block_page_ne mem memOther distinctBlocks samePage
  subst sameBlock
  exact distinct (serving.once isGiven isGivenOther)

theorem of_actor {after : Process Id} (actor : Id)
    (environment : Environment setup heapFrame after.mem)
    (queued : ∀ {id : Id} {address : ℕ}, address ∈ after.queue id →
      (setup.region id).Contains address)
    (onHeap : ∀ {block : ℕ}, block ∈ after.blocks → setup.isHeap (block / pageSize) = true)
    (disjoint : ∀ {block other : ℕ}, block ∈ after.blocks → other ∈ after.blocks →
      block ≠ other → block + pageSize ≤ other ∨ other + pageSize ≤ block)
    (translated : ∀ {id : Id} {address : ℕ}, (setup.region id).Contains address →
      translate after.mem setup.root address =
        (given (pageOf address)).map (fun block => heapFrame (block / pageSize)))
    (known : ∀ {page block : ℕ}, given page = some block → block ∈ after.blocks)
    (once : ∀ {page other block : ℕ}, given page = some block → given other = some block →
      page = other)
    (others : ∀ other, other ≠ actor → after.pc other = .polling)
    (locals : (after.pc actor).Local setup heapFrame after given actor) :
    Serving setup heapFrame after given where
  environment := environment
  queued := queued
  onHeap := onHeap
  disjoint := disjoint
  translated := translated
  known := known
  once := once
  alone := by
    intro id other active distinct
    by_cases isActor : other = actor
    · subst other
      exact absurd (others id (Ne.symm distinct)) active
    · exact others other isActor
  locals := by
    intro id
    by_cases isActor : id = actor
    · exact isActor ▸ locals
    · rw [others id isActor]
      trivial

theorem translated_store (serving : Serving setup heapFrame process given) {id : Id} {address : ℕ}
    (contains : (setup.region id).Contains address)
    (mapped : (translate process.mem setup.root address).isSome) :
    ∃ block, given (pageOf address) = some block ∧ block ∈ process.blocks ∧
      translate process.mem setup.root address = some (heapFrame (block / pageSize)) := by
  rw [serving.translated contains] at mapped ⊢
  rcases Option.isSome_iff_exists.mp mapped with ⟨frame, isFrame⟩
  rcases Option.map_eq_some_iff.mp isFrame with ⟨block, isGiven, _⟩
  exact ⟨block, isGiven, serving.known isGiven, by rw [isGiven, Option.map_some]⟩

theorem store (serving : Serving setup heapFrame process given) {id : Id} {address : ℕ}
    (contains : (setup.region id).Contains address)
    (mapped : (translate process.mem setup.root address).isSome) (byte : BitVec 8) :
    Serving setup heapFrame
      { process with mem := storeByte process.mem setup.root address byte } given := by
  rcases serving.translated_store contains mapped with ⟨block, _, mem, frame_eq⟩
  rcases serving.environment.storeByte (serving.onHeap mem) frame_eq byte with
    ⟨environment, sameFrame⟩
  exact
    { serving with
      environment := environment
      translated := by
        intro other place containsOther
        rw [sameFrame]
        exact serving.translated containsOther
      locals := fun actor => (serving.locals actor).congr rfl rfl }

variable [DecidableEq Id] {after : Process Id} {action : Action Id}

theorem others_polling (serving : Serving setup heapFrame process given) {id : Id} {pc : Pc}
    (active : process.pc id ≠ .polling) {other : Id} (distinct : other ≠ id) :
    Function.update process.pc id pc other = .polling := by
  rw [Function.update_of_ne distinct]
  exact serving.alone active distinct

theorem update (serving : Serving setup heapFrame process given) {id : Id} {vm : PteditEntry}
    (at_pc : process.pc id = .resolved vm) :
    ∃ block, Spare process given block ∧ Serving setup heapFrame
      { process with
        mem := pteditUpdate (ownRoot setup.root) process.mem process.msg 0 vm
        pc := Function.update process.pc id .updated }
      (Function.update given (pageOf process.msg) (some block)) := by
  have locals := serving.locals id
  rw [at_pc] at locals
  rcases locals with ⟨contains, block, spare, valid_eq, isPresent, frame_eq⟩
  rcases serving.environment.regionSlot contains with ⟨table, found⟩
  have tables := serving.environment.tables
  have written : pteditUpdate (ownRoot setup.root) process.mem process.msg 0 vm =
      process.mem.writeWord (entryAddress table (leafIndex process.msg)) vm.pte := by
    rw [pteditUpdate_eq tables.root_pos valid_eq, tables.pteditTable_of_hardwareTable found]
  refine ⟨block, spare, ?_⟩
  refine of_actor id ?_ serving.queued serving.onHeap serving.disjoint ?_ ?_ ?_ ?_ ?_
  · rw [written]
    exact serving.environment.writeEntry contains found vm.pte
  · intro other address containsOther
    simp only [written]
    by_cases samePage : pageOf address = pageOf process.msg
    · rw [tables.translate_writeWord_self found samePage isPresent, samePage,
        Function.update_self, Option.map_some, frame_eq]
    · rw [tables.translate_writeWord_of_ne found samePage, Function.update_of_ne samePage]
      exact serving.translated containsOther
  · intro page other isGiven
    by_cases isPage : page = pageOf process.msg
    · subst page
      rw [Function.update_self, Option.some.injEq] at isGiven
      exact isGiven ▸ spare.1
    · rw [Function.update_of_ne isPage] at isGiven
      exact serving.known isGiven
  · intro page other found isGiven isGivenOther
    by_cases isPage : page = pageOf process.msg <;> by_cases isOther : other = pageOf process.msg
    · rw [isPage, isOther]
    · rw [isPage, Function.update_self, Option.some.injEq] at isGiven
      rw [Function.update_of_ne isOther, ← isGiven] at isGivenOther
      exact absurd isGivenOther (spare.2 other)
    · rw [isOther, Function.update_self, Option.some.injEq] at isGivenOther
      rw [Function.update_of_ne isPage, ← isGivenOther] at isGiven
      exact absurd isGiven (spare.2 page)
    · rw [Function.update_of_ne isPage] at isGiven
      rw [Function.update_of_ne isOther] at isGivenOther
      exact serving.once isGiven isGivenOther
  · intro other distinct
    exact serving.others_polling (by simp [at_pc]) distinct
  · simpa [Pc.Local] using contains

theorem fill (serving : Serving setup heapFrame process given) {id : Id} {givenPage : ℕ}
    {bytes : List (BitVec 8)} (at_pc : process.pc id = .received)
    (mallocs : setup.Mallocs process.blocks givenPage)
    (filled : (setup.region id).fillBytes (process.faultCnt id) process.msg = some bytes) :
    Serving setup heapFrame
      { process with
        mem := storeBytes setup.root process.mem givenPage bytes
        pc := Function.update process.pc id (.filled givenPage)
        faultCnt := Function.update process.faultCnt id (process.faultCnt id + 1)
        blocks := givenPage :: process.blocks }
      given := by
  have contains : (setup.region id).Contains process.msg := by
    have locals := serving.locals id
    rwa [at_pc] at locals
  rcases serving.environment.storeBytes (HeapLayout.fill_onHeap mallocs filled) with
    ⟨environment, sameFrame⟩
  have apart := mallocs.2.2.2
  have isNew : givenPage ∉ process.blocks := by
    intro mem
    have overlap := apart givenPage mem
    simp only [pageSize] at overlap
    omega
  refine of_actor id environment serving.queued ?_ ?_ ?_ ?_ serving.once ?_ ?_
  · intro block mem
    rcases List.mem_cons.mp mem with rfl | mem
    · exact mallocs.2.1
    · exact serving.onHeap mem
  · intro block other mem memOther distinct
    rcases List.mem_cons.mp mem with isBlock | old <;>
      rcases List.mem_cons.mp memOther with isOther | oldOther
    · exact absurd (isBlock.trans isOther.symm) distinct
    · exact isBlock ▸ (apart other oldOther).symm
    · exact isOther ▸ apart block old
    · exact serving.disjoint old oldOther distinct
  · intro other address containsOther
    rw [sameFrame]
    exact serving.translated containsOther
  · exact fun isGiven => List.mem_cons_of_mem _ (serving.known isGiven)
  · intro other distinct
    exact serving.others_polling (by simp [at_pc]) distinct
  · simp only [Function.update_self, Pc.Local]
    refine ⟨contains, List.mem_cons_self, ?_⟩
    intro page isGiven
    exact isNew (serving.known isGiven)

/-- What a step does to the blocks behind the region pages. -/
def Installs (process : Process Id) (given given' : ℕ → Option ℕ) : Action Id → Prop
  | .update _ => ∃ block, Spare process given block ∧
      given' = Function.update given (pageOf process.msg) (some block)
  | _ => given' = given

theorem step (serving : Serving setup heapFrame process given)
    (alone : ReadsAlone process action)
    (stepped : FaultHandler.step setup process action = some after) :
    ∃ given', Installs process given given' action ∧ Serving setup heapFrame after given' := by
  cases step_effect stepped with
  | fault id address contains =>
      refine ⟨given, rfl, { serving with
        queued := step_queued stepped serving.queued
        locals := ?_ }⟩
      exact fun actor => (serving.locals actor).congr rfl rfl
  | read id address at_pc queued =>
      refine ⟨given, rfl, of_actor id serving.environment (step_queued stepped serving.queued)
        serving.onHeap serving.disjoint serving.translated serving.known serving.once ?_ ?_⟩
      · intro other distinct
        simpa [distinct] using alone other distinct
      · simpa [Pc.Local] using serving.queued queued
  | fill id givenPage bytes at_pc mallocs filled =>
      exact ⟨given, rfl, serving.fill at_pc mallocs filled⟩
  | abort id givenPage at_pc fails =>
      refine ⟨given, rfl, { serving with locals := ?_ }⟩
      exact fun actor => (serving.locals actor).congr rfl rfl
  | getPfn id givenPage at_pc =>
      have locals := serving.locals id
      rw [at_pc] at locals
      rcases locals with ⟨contains, spare⟩
      refine ⟨given, rfl, of_actor id serving.environment serving.queued serving.onHeap
        serving.disjoint serving.translated serving.known serving.once ?_ ?_⟩
      · exact fun other distinct => serving.others_polling (by simp [at_pc]) distinct
      · simp only [Process.goto, Function.update_self, Pc.Local]
        exact ⟨contains, givenPage, spare,
          serving.environment.pfn_heap (serving.onHeap spare.1)⟩
  | resolve id givenPagePfn at_pc =>
      have locals := serving.locals id
      rw [at_pc] at locals
      rcases locals with ⟨contains, block, spare, pfn_eq⟩
      have small : givenPagePfn.toNat < 2 ^ 40 := by
        rw [pfn_eq]
        exact serving.environment.heapFrame_lt (serving.onHeap spare.1)
      refine ⟨given, rfl, of_actor id serving.environment serving.queued serving.onHeap
        serving.disjoint serving.translated serving.known serving.once ?_ ?_⟩
      · exact fun other distinct => serving.others_polling (by simp [at_pc]) distinct
      · simp only [Process.goto, Function.update_self, Pc.Local]
        refine ⟨contains, block, spare, rfl, present_installedEntry _ _, ?_⟩
        rw [editedEntry, frame_installedEntry _ small, pfn_eq]
  | update id vm at_pc =>
      rcases serving.update at_pc with ⟨block, spare, servingAfter⟩
      exact ⟨_, ⟨block, spare, rfl⟩, servingAfter⟩
  | wake id at_pc =>
      refine ⟨given, rfl, of_actor id serving.environment serving.queued serving.onHeap
        serving.disjoint serving.translated serving.known serving.once ?_ ?_⟩
      · exact fun other distinct => serving.others_polling (by simp [at_pc]) distinct
      · simp [Process.goto, Pc.Local]
  | store id address byte contains mapped =>
      exact ⟨given, rfl, serving.store contains mapped byte⟩

end Serving

/-- The pages of the regions are missing before their first fault. -/
def Missing (setup : Setup Id) (mem : Bytes) : Prop :=
  ∀ {id : Id} {address : ℕ}, (setup.region id).Contains address →
    translate mem setup.root address = none

theorem start_serving {mem : Bytes} (environment : Environment setup heapFrame mem)
    (missing : Missing setup mem) :
    Serving setup heapFrame (start mem) (fun _ => none) where
  environment := environment
  queued := by simp [start]
  onHeap := by simp [start]
  disjoint := by simp [start]
  translated := missing
  known := by simp
  once := by simp
  alone := by simp [start]
  locals := by simp [start, Pc.Local]

theorem Environment.loadByte_storeByte_of_ne {mem : Bytes}
    (environment : Environment setup heapFrame mem) {address other page : ℕ} {frame : ℕ}
    (isHeap : setup.isHeap page = true)
    (mapped : translate mem setup.root address = some (heapFrame page))
    (mappedOther : translate mem setup.root other = some frame) (distinct : heapFrame page ≠ frame)
    (byte : BitVec 8) :
    loadByte (FaultHandler.storeByte mem setup.root address byte) setup.root other =
      loadByte mem setup.root other := by
  have elsewhere : frame * pageSize + other % pageSize ≠
      heapFrame page * pageSize + address % pageSize := by
    simp only [pageSize]
    omega
  rw [environment.loadByte_storeByte isHeap mapped mappedOther, if_neg elsewhere]

section

variable [DecidableEq Id]

theorem serving_of_run {mem : Bytes} (environment : Environment setup heapFrame mem)
    (missing : Missing setup mem) {past : History (Process Id) (Action Id)}
    {process : Process Id} (run : Run (step setup) (start mem) past process)
    (alone : Guarded ReadsAlone past) : ∃ given, Serving setup heapFrame process given := by
  refine run.invariant ReadsAlone (fun process => ∃ given, Serving setup heapFrame process given)
    ⟨_, start_serving environment missing⟩ ?_ alone
  rintro before after action ⟨given, serving⟩ aloneStep stepped
  rcases serving.step aloneStep stepped with ⟨given', _, servingAfter⟩
  exact ⟨given', servingAfter⟩

/-- In every state reached by handler iterations taken one at a time and by stores of the
application, two different region pages that have been installed are mapped to different
frames, and a store through one of them leaves what is read through the other. -/
theorem installed_frames_distinct {mem : Bytes} (environment : Environment setup heapFrame mem)
    (missing : Missing setup mem) {past : History (Process Id) (Action Id)}
    {process : Process Id} (run : Run (step setup) (start mem) past process)
    (alone : Guarded ReadsAlone past) {id other : Id} {address place frame frame' : ℕ}
    (contains : (setup.region id).Contains address)
    (containsOther : (setup.region other).Contains place)
    (otherPage : address / pageSize ≠ place / pageSize)
    (installed : translate process.mem setup.root address = some frame)
    (installedOther : translate process.mem setup.root place = some frame') :
    frame ≠ frame' ∧ ∀ byte,
      loadByte (storeByte process.mem setup.root address byte) setup.root place =
        loadByte process.mem setup.root place := by
  rcases serving_of_run environment missing run alone with ⟨given, serving⟩
  rcases serving.translated_store contains (by simp [installed]) with
    ⟨block, isGiven, mem, frame_eq⟩
  rcases serving.translated_store containsOther (by simp [installedOther]) with
    ⟨block', isGiven', _, frame_eq'⟩
  have distinct : heapFrame (block / pageSize) ≠ heapFrame (block' / pageSize) := by
    apply serving.frame_ne isGiven isGiven'
    rw [contains.pageOf_eq, containsOther.pageOf_eq]
    exact otherPage
  constructor
  · rw [frame_eq, Option.some.injEq] at installed
    rw [frame_eq', Option.some.injEq] at installedOther
    rwa [← installed, ← installedOther]
  · exact serving.environment.loadByte_storeByte_of_ne (serving.onHeap mem) frame_eq frame_eq'
      distinct

end

theorem sampleSetup_missing {fd : Id → Option (List (BitVec 8))} {number : Id → Fin 64} :
    Missing (sampleSetup fd number) sampleMemory := by
  intro id address contains
  have bounds := sampleRegion_bounds contains
  exact sample_missing bounds.1 bounds.2

theorem frames_distinct_on_sample :
    ∃ past process, Run (step twoSetup) (start sampleMemory) past process ∧
      Guarded ReadsAlone past ∧
      translate process.mem twoSetup.root 0x100234 = some 32 ∧
      translate process.mem twoSetup.root 0x110000 = some 33 ∧
      ∀ byte, loadByte (storeByte process.mem twoSetup.root 0x100234 byte) twoSetup.root 0x110000 =
        loadByte process.mem twoSetup.root 0x110000 := by
  rcases two_served ReadsAlone
    (by
      intro state action allowed
      cases action with
      | read id address => exact fun other _ => allowed id address rfl other
      | _ => trivial) with
    ⟨past, process, alone, run, mapped, mappedOther⟩
  refine ⟨past, process, run, alone, mapped, mappedOther, ?_⟩
  have contains : (twoSetup.region 0).Contains 0x100234 := by decide
  have containsOther : (twoSetup.region 1).Contains 0x110000 := by decide
  exact (installed_frames_distinct sample_environment sampleSetup_missing run alone contains
    containsOther (by decide) mapped mappedOther).2

end UserLevelMmap.FaultHandler
