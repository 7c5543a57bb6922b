import UserLevelMmap.FaultHandler.Stores

/-!
# What the application reads

To the application a region is its file with the stores made so far on top of it. The
handlers bring this about page by page: a frame is filled while nothing refers to it, it
becomes visible with the update of its entry, and from then on only stores change it.
`Showing` carries the content of every installed page, and of the frame that a handler is
about to install, through the steps of the process.
-/

namespace UserLevelMmap.FaultHandler

open PageTable RadixTree

variable {Id : Type} {setup : Setup Id} {heapFrame : ℕ → ℕ}

/-- A message is read while its page is missing, and its address is that of a page when the
region has a file; `malloc` returns a page. -/
def ServesPages (setup : Setup Id) (process : Process Id) : Action Id → Prop
  | .read id address => translate process.mem setup.root address = none ∧
      ((setup.region id).fd.isSome → address % pageSize = 0)
  | .fill _ givenPage => givenPage % pageSize = 0
  | _ => True

/-- `mmap` gives out no address twice. -/
def Setup.Disjoint (setup : Setup Id) : Prop :=
  ∀ {id other : Id} {address : ℕ}, (setup.region id).Contains address →
    (setup.region other).Contains address → id = other

/-- The frame holds what belongs on the page of the address, for a fault of this number. -/
def Holds (mem : Bytes) (region : Region) (address frame faultCnt : ℕ) : Prop :=
  ∀ position < pageSize, some (mem (frame * pageSize + position)) =
    region.byteAt faultCnt (address / pageSize * pageSize + position)

/-- The frame that a handler is about to install has been filled. -/
def Pc.Carries (setup : Setup Id) (heapFrame : ℕ → ℕ) (process : Process Id) (id : Id) : Pc → Prop
  | .received => (setup.region id).fd.isSome → process.msg % pageSize = 0
  | .filled givenPage => ∃ faultCnt, Holds process.mem (setup.region id) process.msg
      (heapFrame (givenPage / pageSize)) faultCnt
  | .located givenPagePfn => ∃ faultCnt, Holds process.mem (setup.region id) process.msg
      givenPagePfn.toNat faultCnt
  | .resolved vm => ∃ faultCnt, Holds process.mem (setup.region id) process.msg
      vm.pte.frame faultCnt
  | _ => True

/-- Through every installed page the application reads its last stores and, where it has made
none, what belongs to the region; `order` is the number of the fault that each page has had. -/
def Shows (setup : Setup Id) (past : History (Process Id) (Action Id)) (process : Process Id)
    (order : ℕ → ℕ) : Prop :=
  ∀ {id : Id} {address : ℕ}, (setup.region id).Contains address →
    (translate process.mem setup.root address).isSome →
      loadByte process.mem setup.root address =
        (lastStore past address).or ((setup.region id).byteAt (order (pageOf address)) address)

/-- The invariant of handlers that serve missing pages with whole pages. -/
structure Showing (setup : Setup Id) (heapFrame : ℕ → ℕ) (past : History (Process Id) (Action Id))
    (process : Process Id) (given : ℕ → Option ℕ) (order : ℕ → ℕ) : Prop where
  storing : Storing setup heapFrame past process given
  carries : ∀ id, (process.pc id).Carries setup heapFrame process id
  shows : Shows setup past process order

theorem Region.Contains.of_samePage {region : Region} {address other : ℕ}
    (contains : region.Contains address) (samePage : address / pageSize = other / pageSize) :
    region.Contains other := by
  have base_aligned := region.base_aligned
  have length_aligned := region.length_aligned
  rcases contains with ⟨low, high⟩
  simp only [Region.Contains, pageSize] at *
  omega

theorem mallocs_of_fill [DecidableEq Id] {process after : Process Id} {id : Id} {givenPage : ℕ}
    (stepped : step setup process (.fill id givenPage) = some after) :
    setup.Mallocs process.blocks givenPage := by
  unfold step at stepped
  split at stepped
  · contradiction
  · simp only at stepped
    split at stepped
    · rw [Option.ite_none_right_eq_some] at stepped
      exact stepped.1
    · contradiction

/-- A block that begins with its page does not end on the first page of another one. -/
theorem servesFresh_of_servesPages [DecidableEq Id] {process after : Process Id}
    {action : Action Id} (serves : ServesPages setup process action)
    (stepped : step setup process action = some after) : ServesFresh setup process action := by
  cases action with
  | read id address => exact serves.1
  | fill id givenPage =>
      intro block mem samePage
      have aligned : givenPage % pageSize = 0 := serves
      have apart := (mallocs_of_fill stepped).2.2.2 block mem
      simp only [pageSize] at *
      omega
  | _ => trivial

theorem Holds.congr {mem mem' : Bytes} {region : Region} {address frame faultCnt : ℕ}
    (holds : Holds mem region address frame faultCnt)
    (agree : ∀ position < pageSize,
      mem' (frame * pageSize + position) = mem (frame * pageSize + position)) :
    Holds mem' region address frame faultCnt := by
  intro position inPage
  rw [agree position inPage]
  exact holds position inPage

namespace Environment

variable {mem : Bytes}

theorem loadByte_heap (environment : Environment setup heapFrame mem) {place : ℕ}
    (isHeap : setup.isHeap (place / pageSize) = true) :
    loadByte mem setup.root place =
      some (mem (heapFrame (place / pageSize) * pageSize + place % pageSize)) := by
  rw [loadByte, physical, environment.translate_heap isHeap, Option.map_some, Option.map_some]

/-- The fill of a page leaves it with what belongs on the page of the fault address. -/
theorem holds_fill (environment : Environment setup heapFrame mem) {region : Region}
    {blocks : List ℕ} {faultCnt address givenPage : ℕ} {bytes : List (BitVec 8)}
    (contains : region.Contains address) (mallocs : setup.Mallocs blocks givenPage)
    (filled : region.fillBytes faultCnt address = some bytes)
    (alignedGiven : givenPage % pageSize = 0)
    (aligned : region.fd.isSome → address % pageSize = 0) :
    Holds (FaultHandler.storeBytes setup.root mem givenPage bytes) region address
      (heapFrame (givenPage / pageSize)) faultCnt := by
  intro position inPage
  have onHeap := HeapLayout.fill_onHeap mallocs filled
  have page_eq : (givenPage + position) / pageSize = givenPage / pageSize := by
    simp only [pageSize] at *
    omega
  have offset_eq : (givenPage + position) % pageSize = position := by
    simp only [pageSize] at *
    omega
  have isHeap : setup.isHeap ((givenPage + position) / pageSize) = true := by
    rw [page_eq]
    exact mallocs.2.1
  have environmentFilled := (environment.storeBytes onHeap).1
  have loaded := environment.loadByte_storeBytes onHeap isHeap
  rw [environmentFilled.loadByte_heap isHeap, Region.fillBytes_length filled,
    if_pos (by omega), Nat.add_sub_cancel_left, page_eq, offset_eq,
    region.getElem_fillBytes contains filled inPage] at loaded
  rw [loaded]
  -- A letter does not depend on the address, and a file is read from the page on.
  cases fd_eq : region.fd with
  | none => simp only [Region.byteAt, fd_eq]
  | some file =>
      have page_start : address / pageSize * pageSize = address := by
        have isAligned := aligned (by rw [fd_eq]; rfl)
        simp only [pageSize] at *
        omega
      rw [page_start]

end Environment

namespace Showing

variable {past : History (Process Id) (Action Id)} {process : Process Id} {given : ℕ → Option ℕ}
  {order : ℕ → ℕ}

/-- The frame that a handler is about to install is behind no region page. -/
theorem frame_spare (serving : Serving setup heapFrame process given) {block : ℕ}
    (spare : Spare process given block) {id : Id} {address frame : ℕ}
    (contains : (setup.region id).Contains address)
    (installed : translate process.mem setup.root address = some frame) :
    frame ≠ heapFrame (block / pageSize) := by
  rcases serving.translated_store contains (by simp [installed]) with
    ⟨behind, isGiven, mem, frame_eq⟩
  rw [installed, Option.some.injEq] at frame_eq
  rw [frame_eq]
  intro sameFrame
  have samePage := serving.environment.heapDistinct (serving.onHeap mem) (serving.onHeap spare.1)
    sameFrame
  apply serving.block_page_ne mem spare.1 _ samePage
  rintro rfl
  exact spare.2 _ isGiven

/-- A store of the application does not reach a spare block. -/
theorem store_spare (serving : Serving setup heapFrame process given) {block : ℕ}
    (spare : Spare process given block) {id : Id} {address : ℕ}
    (contains : (setup.region id).Contains address)
    (mapped : (translate process.mem setup.root address).isSome) (byte : BitVec 8) {position : ℕ}
    (inPage : position < pageSize) :
    storeByte process.mem setup.root address byte
        (heapFrame (block / pageSize) * pageSize + position) =
      process.mem (heapFrame (block / pageSize) * pageSize + position) := by
  rcases Option.isSome_iff_exists.mp mapped with ⟨frame, installed⟩
  have distinct := frame_spare serving spare contains installed
  rw [storeByte, physical, installed, Option.map_some]
  apply Function.update_of_ne
  simp only [pageSize] at *
  omega

theorem carries_store (showing : Showing setup heapFrame past process given order) {id : Id}
    {address : ℕ} (contains : (setup.region id).Contains address)
    (mapped : (translate process.mem setup.root address).isSome) (byte : BitVec 8) (actor : Id) :
    (process.pc actor).Carries setup heapFrame
      { process with mem := storeByte process.mem setup.root address byte } actor := by
  have serving := showing.storing.serving
  have locals := serving.locals actor
  have carries := showing.carries actor
  cases at_pc : process.pc actor with
  | filled givenPage =>
      rw [at_pc] at locals carries
      rcases carries with ⟨faultCnt, holds⟩
      refine ⟨faultCnt, holds.congr ?_⟩
      intro position inPage
      exact store_spare serving locals.2 contains mapped byte inPage
  | located givenPagePfn =>
      rw [at_pc] at locals carries
      rcases locals with ⟨_, block, spare, pfn_eq⟩
      rcases carries with ⟨faultCnt, holds⟩
      refine ⟨faultCnt, holds.congr ?_⟩
      intro position inPage
      rw [pfn_eq]
      exact store_spare serving spare contains mapped byte inPage
  | resolved vm =>
      rw [at_pc] at locals carries
      rcases locals with ⟨_, block, spare, _, _, frame_eq⟩
      rcases carries with ⟨faultCnt, holds⟩
      refine ⟨faultCnt, holds.congr ?_⟩
      intro position inPage
      rw [frame_eq]
      exact store_spare serving spare contains mapped byte inPage
  | received =>
      rw [at_pc] at carries
      exact carries
  | polling => trivial
  | updated => trivial

/-- The update of an entry shows the frame that its handler has filled. -/
theorem loadByte_update (showing : Showing setup heapFrame past process given order)
    (disjoint : setup.Disjoint) {actor : Id} {vm : PteditEntry}
    (at_pc : process.pc actor = .resolved vm) :
    ∃ faultCnt, ∀ {id : Id} {address : ℕ}, (setup.region id).Contains address →
      pageOf address = pageOf process.msg →
        loadByte (pteditUpdate (ownRoot setup.root) process.mem process.msg 0 vm) setup.root
          address = (setup.region id).byteAt faultCnt address := by
  have serving := showing.storing.serving
  have tables := serving.environment.tables
  have locals := serving.locals actor
  have carries := showing.carries actor
  rw [at_pc] at locals carries
  rcases locals with ⟨containsMsg, block, spare, valid_eq, isPresent, frame_eq⟩
  rcases carries with ⟨faultCnt, holds⟩
  rcases serving.environment.regionSlot containsMsg with ⟨table, found⟩
  have isTable : IsTable process.mem setup.root table := ⟨_, by simp [directory], found⟩
  refine ⟨faultCnt, ?_⟩
  intro id address contains samePage
  have page_eq := samePage
  rw [contains.pageOf_eq, containsMsg.pageOf_eq] at page_eq
  have isActor := disjoint (contains.of_samePage page_eq) containsMsg
  subst id
  have inPage : address % pageSize < pageSize := Nat.mod_lt _ (by decide)
  have address_eq : process.msg / pageSize * pageSize + address % pageSize = address := by
    rw [← page_eq]
    exact Nat.div_add_mod' address pageSize
  have kept : process.mem.writeWord (entryAddress table (leafIndex process.msg)) vm.pte
      (heapFrame (block / pageSize) * pageSize + address % pageSize) =
        process.mem (heapFrame (block / pageSize) * pageSize + address % pageSize) :=
    serving.environment.heapByte_writeWord (serving.onHeap spare.1) isTable inPage
  have held := holds _ inPage
  rw [address_eq, frame_eq, ← kept] at held
  rw [pteditUpdate_eq tables.root_pos valid_eq, tables.pteditTable_of_hardwareTable found,
    ← held, loadByte, physical, tables.translate_writeWord_self found samePage isPresent,
    Option.map_some, Option.map_some, frame_eq]

theorem carries_of_actor {after : Process Id} (actor : Id)
    (others : ∀ other, other ≠ actor → after.pc other = .polling)
    (carriesActor : (after.pc actor).Carries setup heapFrame after actor) (id : Id) :
    (after.pc id).Carries setup heapFrame after id := by
  by_cases isActor : id = actor
  · exact isActor ▸ carriesActor
  · rw [others id isActor]
    trivial

variable [DecidableEq Id] {after : Process Id} {action : Action Id}

/-- The step of a handler takes what it carries along. -/
theorem carries_step (showing : Showing setup heapFrame past process given order)
    (alone : ReadsAlone process action) (serves : ServesPages setup process action)
    (stepped : FaultHandler.step setup process action = some after) (id : Id) :
    (after.pc id).Carries setup heapFrame after id := by
  have serving := showing.storing.serving
  have carries := showing.carries
  cases step_effect stepped with
  | fault actor address contains => exact carries id
  | read actor address at_pc queued =>
      apply carries_of_actor actor
      · intro other distinct
        simp only [Function.update_of_ne distinct]
        exact alone other distinct
      · simp only [Function.update_self]
        exact serves.2
  | fill actor givenPage bytes at_pc mallocs filled =>
      have locals := serving.locals actor
      have carriesActor := carries actor
      rw [at_pc] at locals carriesActor
      apply carries_of_actor actor
      · exact fun other distinct => serving.others_polling (by simp [at_pc]) distinct
      · simp only [Function.update_self]
        exact ⟨_, serving.environment.holds_fill locals mallocs filled serves carriesActor⟩
  | abort actor givenPage at_pc fails => exact carries id
  | getPfn actor givenPage at_pc =>
      have locals := serving.locals actor
      have carriesActor := carries actor
      rw [at_pc] at locals carriesActor
      have pfn_eq := serving.environment.pfn_heap (serving.onHeap locals.2.1)
      apply carries_of_actor actor
      · exact fun other distinct => serving.others_polling (by simp [at_pc]) distinct
      · simp only [Process.goto, Function.update_self, Pc.Carries, pfn_eq]
        exact carriesActor
  | resolve actor givenPagePfn at_pc =>
      have locals := serving.locals actor
      have carriesActor := carries actor
      rw [at_pc] at locals carriesActor
      rcases locals with ⟨_, block, spare, pfn_eq⟩
      have small : givenPagePfn.toNat < 2 ^ 40 := by
        rw [pfn_eq]
        exact serving.environment.heapFrame_lt (serving.onHeap spare.1)
      apply carries_of_actor actor
      · exact fun other distinct => serving.others_polling (by simp [at_pc]) distinct
      · simp only [Process.goto, Function.update_self, Pc.Carries, editedEntry,
          frame_installedEntry _ small]
        exact carriesActor
  | update actor vm at_pc =>
      apply carries_of_actor actor
      · exact fun other distinct => serving.others_polling (by simp [at_pc]) distinct
      · simp only [Function.update_self]
        trivial
  | wake actor at_pc =>
      apply carries_of_actor actor
      · exact fun other distinct => serving.others_polling (by simp [at_pc]) distinct
      · simp only [Process.goto, Function.update_self, Pc.Carries]
  | store actor address byte contains mapped =>
      exact showing.carries_store contains mapped byte id

/-- A step installs no page but the one of the message in an update. -/
theorem translate_step (showing : Showing setup heapFrame past process given order)
    (alone : ReadsAlone process action)
    (stepped : FaultHandler.step setup process action = some after) {id : Id} {address : ℕ}
    (contains : (setup.region id).Contains address)
    (elsewhere : ∀ actor, action = .update actor → pageOf address ≠ pageOf process.msg) :
    translate after.mem setup.root address = translate process.mem setup.root address := by
  have serving := showing.storing.serving
  rcases serving.step alone stepped with ⟨given', installs, servingAfter⟩
  have same : given' (pageOf address) = given (pageOf address) := by
    cases action with
    | update actor =>
        rcases installs with ⟨block, _, given_eq⟩
        rw [given_eq, Function.update_of_ne (elsewhere actor rfl)]
    | _ => rw [show given' = given from installs]
  rw [servingAfter.translated contains, serving.translated contains, same]

theorem step (showing : Showing setup heapFrame past process given order)
    (disjoint : setup.Disjoint) (alone : ReadsAlone process action)
    (serves : ServesPages setup process action)
    (stepped : FaultHandler.step setup process action = some after) :
    ∃ given' order', Showing setup heapFrame ((process, action) :: past) after given' order' := by
  have storing := showing.storing
  have fresh := servesFresh_of_servesPages serves stepped
  rcases storing.step alone fresh stepped with ⟨given', storingAfter⟩
  have carriesAfter := showing.carries_step alone serves stepped
  have kept : ∀ {id : Id} {address : ℕ}, (setup.region id).Contains address →
      (translate process.mem setup.root address).isSome →
        loadByte after.mem setup.root address =
          (lastStore ((process, action) :: past) address).or
            ((setup.region id).byteAt (order (pageOf address)) address) := by
    intro id address contains mapped
    rcases Option.isSome_iff_exists.mp mapped with ⟨frame, installed⟩
    rw [(storing.serving.step_keeps storing.pending fresh stepped contains installed).2,
      showing.shows contains mapped, lastStore_cons, Option.or_assoc]
  by_cases isUpdate : ∃ actor, action = .update actor
  · rcases isUpdate with ⟨actor, rfl⟩
    cases step_effect stepped with
    | update _ vm at_pc =>
        rcases showing.loadByte_update disjoint at_pc with ⟨faultCnt, shown⟩
        have missing := storing.pending actor (by rw [at_pc]; trivial)
        refine ⟨given', Function.update order (pageOf process.msg) faultCnt, storingAfter,
          carriesAfter, ?_⟩
        intro id address contains mapped
        by_cases samePage : pageOf address = pageOf process.msg
        · -- Nothing has been stored to a page that was missing until now.
          have noStore : lastStore past address = none := by
            cases stored : lastStore past address with
            | none => rfl
            | some byte =>
                rcases translate_of_loadByte (storing.stored stored).2 with ⟨frame, installed⟩
                rw [storing.serving.translated contains, samePage, missing] at installed
                contradiction
          rw [shown contains samePage, lastStore_cons, noStore, samePage, Function.update_self]
          rfl
        · rw [showing.translate_step alone stepped contains (fun _ _ => samePage)] at mapped
          rw [Function.update_of_ne samePage]
          exact kept contains mapped
  · refine ⟨given', order, storingAfter, carriesAfter, ?_⟩
    intro id address contains mapped
    rw [showing.translate_step alone stepped contains
      (fun actor isAction => absurd ⟨actor, isAction⟩ isUpdate)] at mapped
    exact kept contains mapped

end Showing

section

variable [DecidableEq Id]

theorem showing_of_run {mem : Bytes} (environment : Environment setup heapFrame mem)
    (missing : Missing setup mem) (disjoint : setup.Disjoint)
    {past : History (Process Id) (Action Id)} {process : Process Id}
    (run : Run (step setup) (start mem) past process) (alone : Guarded ReadsAlone past)
    (serves : Guarded (ServesPages setup) past) :
    ∃ given order, Showing setup heapFrame past process given order := by
  induction run with
  | start =>
      rcases storing_of_run environment missing .start alone Guarded.nil with ⟨given, storing⟩
      refine ⟨given, fun _ => 0, storing, by simp [start, Pc.Carries], ?_⟩
      intro id address contains mapped
      rw [show (start mem : Process Id).mem = mem from rfl, missing contains] at mapped
      contradiction
  | step run stepped ih =>
      rcases ih alone.tail serves.tail with ⟨given, order, showing⟩
      exact showing.step disjoint alone.head serves.head stepped

/-- In every state of every run in which the handlers take iterations one at a time, read a
message only while its page is missing, and get whole pages, a region reads as its file with the
stores made so far on top of it; an anonymous region reads as one letter for each page. -/
theorem regions_read_as_files {mem : Bytes} (environment : Environment setup heapFrame mem)
    (missing : Missing setup mem) (disjoint : setup.Disjoint)
    {past : History (Process Id) (Action Id)} {process : Process Id}
    (run : Run (step setup) (start mem) past process) (alone : Guarded ReadsAlone past)
    (serves : Guarded (ServesPages setup) past) :
    ∃ order : ℕ → ℕ, ∀ id address, (setup.region id).Contains address →
      (translate process.mem setup.root address).isSome →
        loadByte process.mem setup.root address =
          (lastStore past address).or
            (match (setup.region id).fd with
            | some file => file[(setup.region id).offset + (address - (setup.region id).baseAddr)]?
            | none => some (fillLetter (order (address / pageSize)))) := by
  rcases showing_of_run environment missing disjoint run alone serves with
    ⟨given, order, showing⟩
  refine ⟨order, ?_⟩
  intro id address contains mapped
  rw [showing.shows contains mapped, contains.pageOf_eq]
  unfold Region.byteAt
  cases (setup.region id).fd with
  | none => rfl
  | some file => rfl

end

theorem loneSetup_disjoint {fd : Option (List (BitVec 8))} : (loneSetup fd).Disjoint :=
  fun _ _ => rfl

/-- After a fault on the first page and a store of `7` to its second byte, the first byte is that
of the file and the second one is `7`. -/
theorem file_read_on_sample :
    ∃ past process, Run (step (loneSetup (some sampleFile))) (start sampleMemory) past process ∧
      Guarded ReadsAlone past ∧ Guarded (ServesPages (loneSetup (some sampleFile))) past ∧
      loadByte process.mem 1 0x100000 = some 1 ∧ loadByte process.mem 1 0x100001 = some 7 := by
  have environment : Environment (loneSetup (some sampleFile)) (fun page => page + 16)
      sampleMemory :=
    sample_environment
  have contains : ((loneSetup (some sampleFile)).region ()).Contains 0x100000 := by decide
  have containsStored : ((loneSetup (some sampleFile)).region ()).Contains 0x100001 := by decide
  have mallocs : (loneSetup (some sampleFile)).Mallocs [] 0x10000 := by decide
  have covered : ((loneSetup (some sampleFile)).region ()).Covered := by
    apply loneSetup_covered
    intro file isFile
    rw [Option.some.injEq] at isFile
    rw [← isFile, sampleFile, List.length_cons, List.length_replicate]
  have served : ∃ mem, iteration 1 ((loneSetup (some sampleFile)).region ()) 0 0x100000 0x10000
      sampleMemory = some mem := by
    rcases Region.fillBytes_of_hasPage contains (covered.hasPage contains (fun _ => by decide)) 0
      with ⟨bytes, filled⟩
    rw [iteration, filled]
    exact ⟨_, rfl⟩
  rcases served with ⟨mem, iterated⟩
  have mapped := (environment.iteration contains mallocs iterated).2.1
  have mappedStored := mapped
  rw [← translate_of_samePage (show pageOf 0x100001 = pageOf 0x100000 by decide)] at mappedStored
  have runStart : Run (step (loneSetup (some sampleFile))) (start sampleMemory) []
      (start sampleMemory) := .start
  have runFault := runStart.extend (.fault () 0x100000) (by simp [step, start, contains]; rfl)
  rcases run_iteration runFault
    (Guarded.nil.cons (show ServesPages (loneSetup (some sampleFile)) _ (.fault () 0x100000) from
      trivial))
    () 0x100000 0x10000 rfl rfl (by simp) mallocs iterated
    ⟨sample_missing (by decide) (by decide), fun _ => by decide⟩ (fun _ _ => rfl)
    (fun _ _ isRest => by
      simp only [List.mem_cons, List.not_mem_nil, or_false] at isRest
      rcases isRest with rfl | rfl | rfl | rfl <;> trivial)
    with ⟨recent, actions, serves, run⟩
  simp only [Function.update_eq_const_of_subsingleton, Function.const_apply,
    List.erase_cons_head] at run
  have stores : step (loneSetup (some sampleFile))
      { mem := mem, msg := 0x100000, pc := fun _ => .polling, faultCnt := fun _ => 1,
        queue := fun _ => [], blocks := [0x10000], aborted := false } (.store () 0x100001 7) =
      some { mem := storeByte mem 1 0x100001 7, msg := 0x100000, pc := fun _ => .polling,
             faultCnt := fun _ => 1, queue := fun _ => [], blocks := [0x10000],
             aborted := false } := by
    rw [step, if_neg (by simp)]
    exact if_pos ⟨containsStored, by rw [mappedStored]; rfl⟩
  have runStore := run.step stores
  have kept := (environment.iteration contains mallocs iterated).1.storeByte mallocs.2.1
    mappedStored 7
  have isMapped : ∀ {address : ℕ}, pageOf address = pageOf 0x100000 →
      (translate (storeByte mem 1 0x100001 7) 1 address).isSome := by
    intro address samePage
    have frame_eq := (kept.2 address).trans ((translate_of_samePage samePage).trans mapped)
    exact frame_eq ▸ rfl
  rcases regions_read_as_files environment sampleSetup_missing loneSetup_disjoint runStore
    (readsAlone_of_lone _) (serves.cons trivial) with ⟨order, shown⟩
  refine ⟨_, _, runStore, readsAlone_of_lone _, serves.cons trivial, ?_, ?_⟩
  · refine (shown () 0x100000 contains (isMapped rfl)).trans ?_
    rw [lastStore_cons, lastStore_iteration actions]
    have mark : ((loneSetup (some sampleFile)).region ()).byteAt 0 0x100000 = some 1 := by
      decide +kernel
    exact mark
  · refine (shown () 0x100001 containsStored (isMapped (by decide))).trans ?_
    rw [lastStore_cons]
    rfl

end UserLevelMmap.FaultHandler
