import UserLevelMmap.FaultHandler.Frames

/-!
# Stores of the application

Several threads may fault on one page before it is served, and each of them leaves a
message. The handler serves every message alike: it does not look whether the page is
present, and the update replaces the frame of a page that has been installed and stored
to. A second loss comes from the buffers: a fill writes 4096 bytes from an address inside
a page on, so its end may lie on the first page of a block that is behind a region page.
Apart from these two cases every installed frame stays and every store is read back.
-/

namespace UserLevelMmap.FaultHandler

open PageTable RadixTree

variable {Id : Type} {setup : Setup Id} {heapFrame : ℕ → ℕ}

/-- The byte that an action stores to the address. -/
def storedBy (address : ℕ) : Action Id → Option (BitVec 8)
  | .store _ place byte => if place = address then some byte else none
  | _ => none

/-- The last byte that the application has stored to an address. -/
def lastStore (past : History (Process Id) (Action Id)) (address : ℕ) : Option (BitVec 8) :=
  (past.map Prod.snd).findSome? (storedBy address)

/-- A message is read while its page is missing, and a buffer does not end on the first page of
an earlier one. -/
def ServesFresh (setup : Setup Id) (process : Process Id) : Action Id → Prop
  | .read _ address => translate process.mem setup.root address = none
  | .fill _ givenPage => ∀ block ∈ process.blocks,
      (givenPage + (pageSize - 1)) / pageSize ≠ block / pageSize
  | _ => True

/-- The handler has read a message and not updated the page table yet. -/
def Pc.Pending : Pc → Prop
  | .polling => False
  | .updated => False
  | _ => True

theorem Environment.loadByte_storeBytes_of_ne {mem : Bytes}
    (environment : Environment setup heapFrame mem) {address other frame : ℕ}
    {bytes : List (BitVec 8)}
    (onHeap : ∀ place, address ≤ place → place < address + bytes.length →
      setup.isHeap (place / pageSize) = true)
    (mapped : translate mem setup.root other = some frame)
    (elsewhere : ∀ place, address ≤ place → place < address + bytes.length →
      heapFrame (place / pageSize) ≠ frame) :
    loadByte (FaultHandler.storeBytes setup.root mem address bytes) setup.root other =
      loadByte mem setup.root other := by
  induction bytes generalizing mem address with
  | nil => rfl
  | cons byte rest ih =>
      rw [List.length_cons] at onHeap elsewhere
      have isHeap := onHeap address (Nat.le_refl _) (by omega)
      have mappedFirst := environment.translate_heap isHeap
      rcases environment.storeByte isHeap mappedFirst byte with ⟨environmentFirst, sameFrame⟩
      rw [FaultHandler.storeBytes, ih environmentFirst
        (fun place low high => onHeap place (by omega) (by omega)) (by rw [sameFrame, mapped])
        (fun place low high => elsewhere place (by omega) (by omega))]
      exact environment.loadByte_storeByte_of_ne isHeap mappedFirst mapped
        (elsewhere address (Nat.le_refl _) (by omega)) byte

namespace Serving

variable {process : Process Id} {given : ℕ → Option ℕ}

theorem loadByte_store (serving : Serving setup heapFrame process given) {id other : Id}
    {address place : ℕ} (contains : (setup.region id).Contains address)
    (containsOther : (setup.region other).Contains place)
    (mapped : (translate process.mem setup.root address).isSome)
    (mappedOther : (translate process.mem setup.root place).isSome) (byte : BitVec 8) :
    loadByte (storeByte process.mem setup.root place byte) setup.root address =
      if place = address then some byte else loadByte process.mem setup.root address := by
  rcases serving.translated_store contains mapped with ⟨block, isGiven, mem, frame_eq⟩
  rcases serving.translated_store containsOther mappedOther with
    ⟨block', isGiven', mem', frame_eq'⟩
  have samePlace : heapFrame (block / pageSize) * pageSize + address % pageSize =
      heapFrame (block' / pageSize) * pageSize + place % pageSize ↔ place = address := by
    constructor
    · intro samePlace
      have sameFrame : heapFrame (block / pageSize) = heapFrame (block' / pageSize) := by
        simp only [pageSize] at samePlace ⊢
        omega
      have samePage : pageOf address = pageOf place := by
        by_contra distinct
        exact serving.frame_ne isGiven isGiven' distinct sameFrame
      rw [contains.pageOf_eq, containsOther.pageOf_eq] at samePage
      rw [sameFrame] at samePlace
      simp only [pageSize] at samePlace samePage
      omega
    · rintro rfl
      rw [isGiven, Option.some.injEq] at isGiven'
      rw [isGiven']
  rw [serving.environment.loadByte_storeByte (serving.onHeap mem') frame_eq' frame_eq]
  simp only [samePlace]

variable [DecidableEq Id] {after : Process Id} {action : Action Id}

/-- A step of a handler or of the application keeps the frame of an installed page, and keeps
what is read there unless it is a store to this address. -/
theorem step_keeps (serving : Serving setup heapFrame process given)
    (pending : ∀ id, (process.pc id).Pending → given (pageOf process.msg) = none)
    (fresh : ServesFresh setup process action)
    (stepped : FaultHandler.step setup process action = some after) {id : Id} {address frame : ℕ}
    (contains : (setup.region id).Contains address)
    (installed : translate process.mem setup.root address = some frame) :
    translate after.mem setup.root address = some frame ∧
      loadByte after.mem setup.root address =
        (storedBy address action).or (loadByte process.mem setup.root address) := by
  rcases serving.translated_store contains (by simp [installed]) with
    ⟨block, isGiven, mem, frame_eq⟩
  rw [installed, Option.some.injEq] at frame_eq
  cases step_effect stepped with
  | fault id address contains => exact ⟨installed, rfl⟩
  | read id address at_pc queued => exact ⟨installed, rfl⟩
  | fill id givenPage bytes at_pc mallocs filled =>
      have filled_length := Region.fillBytes_length filled
      have onHeap := HeapLayout.fill_onHeap mallocs filled
      refine ⟨?_, serving.environment.loadByte_storeBytes_of_ne onHeap installed ?_⟩
      · rw [(serving.environment.storeBytes onHeap).2, installed]
      · intro place low high sameFrame
        rw [frame_eq] at sameFrame
        have samePage := serving.environment.heapDistinct (onHeap place low high)
          (serving.onHeap mem) sameFrame
        have apart := mallocs.2.2.2 block mem
        have otherPage := fresh block mem
        rw [filled_length] at high
        simp only [pageSize] at *
        omega
  | abort id givenPage at_pc fails => exact ⟨installed, rfl⟩
  | getPfn id givenPage at_pc => exact ⟨installed, rfl⟩
  | resolve id givenPagePfn at_pc => exact ⟨installed, rfl⟩
  | update actor vm at_pc =>
      have locals := serving.locals actor
      rw [at_pc] at locals
      rcases locals with ⟨containsMsg, _, _, valid_eq, _, _⟩
      have tables := serving.environment.tables
      rcases serving.environment.regionSlot containsMsg with ⟨table, found⟩
      have otherPage : pageOf address ≠ pageOf process.msg := by
        intro samePage
        have missing := pending actor (by rw [at_pc]; trivial)
        rw [← samePage, isGiven] at missing
        contradiction
      simp only [pteditUpdate_eq tables.root_pos valid_eq,
        tables.pteditTable_of_hardwareTable found]
      refine ⟨?_, ?_⟩
      · rw [tables.translate_writeWord_of_ne found otherPage, installed]
      · exact serving.environment.loadByte_writeEntry found otherPage (serving.onHeap mem)
          (by rw [installed, frame_eq])
  | wake id at_pc => exact ⟨installed, rfl⟩
  | store other place byte containsOther mapped =>
      rcases serving.translated_store containsOther mapped with ⟨block', _, mem', mapped_eq⟩
      refine ⟨?_, ?_⟩
      · rw [(serving.environment.storeByte (serving.onHeap mem') mapped_eq byte).2, installed]
      · rw [serving.loadByte_store contains containsOther (by simp [installed]) mapped byte,
          storedBy]
        split_ifs
        · rfl
        · rfl

theorem step_pending (serving : Serving setup heapFrame process given)
    (pending : ∀ id, (process.pc id).Pending → given (pageOf process.msg) = none)
    (alone : ReadsAlone process action) (fresh : ServesFresh setup process action)
    (stepped : FaultHandler.step setup process action = some after) :
    ∃ given', Serving setup heapFrame after given' ∧
      ∀ id, (after.pc id).Pending → given' (pageOf after.msg) = none := by
  rcases serving.step alone stepped with ⟨given', installs, servingAfter⟩
  refine ⟨given', servingAfter, ?_⟩
  cases step_effect stepped with
  | fault actor address contains =>
      subst given'
      exact pending
  | read actor address at_pc queued =>
      subst given'
      intro id isPending
      have missing : translate process.mem setup.root address = none := fresh
      rw [serving.translated (serving.queued queued), Option.map_eq_none_iff] at missing
      exact missing
  | fill actor givenPage bytes at_pc mallocs filled =>
      subst given'
      intro id isPending
      apply pending actor
      rw [at_pc]
      trivial
  | abort actor givenPage at_pc fails =>
      subst given'
      exact pending
  | getPfn actor givenPage at_pc =>
      subst given'
      intro id isPending
      apply pending actor
      rw [at_pc]
      trivial
  | resolve actor givenPagePfn at_pc =>
      subst given'
      intro id isPending
      apply pending actor
      rw [at_pc]
      trivial
  | update actor vm at_pc =>
      intro id isPending
      by_cases isActor : id = actor
      · subst id
        simp [Pc.Pending] at isPending
      · simp only [Function.update_of_ne isActor,
          serving.alone (show process.pc actor ≠ .polling by simp [at_pc]) isActor] at isPending
        exact isPending.elim
  | wake actor at_pc =>
      subst given'
      intro id isPending
      by_cases isActor : id = actor
      · subst id
        simp [Process.goto, Pc.Pending] at isPending
      · simp only [Process.goto, Function.update_of_ne isActor] at isPending
        exact pending id isPending
  | store actor address byte contains mapped =>
      subst given'
      exact pending

end Serving

/-- The invariant of handlers that serve missing pages only: what has been installed stays, and
the last stores are in memory. -/
structure Storing (setup : Setup Id) (heapFrame : ℕ → ℕ) (past : History (Process Id) (Action Id))
    (process : Process Id) (given : ℕ → Option ℕ) : Prop where
  serving : Serving setup heapFrame process given
  pending : ∀ id, (process.pc id).Pending → given (pageOf process.msg) = none
  installed : ∀ moment ∈ past, ∀ {id : Id} {address frame : ℕ},
    (setup.region id).Contains address →
      translate moment.1.mem setup.root address = some frame →
        translate process.mem setup.root address = some frame
  stored : ∀ {address : ℕ} {byte : BitVec 8}, lastStore past address = some byte →
    (∃ id, (setup.region id).Contains address) ∧
      loadByte process.mem setup.root address = some byte

theorem translate_of_loadByte {mem : Bytes} {root address : ℕ} {byte : BitVec 8}
    (loaded : loadByte mem root address = some byte) :
    ∃ frame, translate mem root address = some frame := by
  rcases Option.map_eq_some_iff.mp loaded with ⟨place, isPlace, _⟩
  rcases Option.map_eq_some_iff.mp isPlace with ⟨frame, isFrame, _⟩
  exact ⟨frame, isFrame⟩

theorem lastStore_cons {past : History (Process Id) (Action Id)} {before : Process Id}
    {action : Action Id} {address : ℕ} :
    lastStore ((before, action) :: past) address =
      (storedBy address action).or (lastStore past address) := by
  rw [lastStore, List.map_cons, List.findSome?_cons]
  cases storedBy address action with
  | none => rfl
  | some byte => rfl

section

variable [DecidableEq Id]

theorem mapped_of_storedBy {process after : Process Id} {action : Action Id} {address : ℕ}
    {byte : BitVec 8} (written : storedBy address action = some byte)
    (stepped : step setup process action = some after) :
    ∃ id frame, (setup.region id).Contains address ∧
      translate process.mem setup.root address = some frame := by
  cases step_effect stepped with
  | store id place stored contains mapped =>
      simp only [storedBy, Option.ite_none_right_eq_some] at written
      rcases written with ⟨rfl, _⟩
      rcases Option.isSome_iff_exists.mp mapped with ⟨frame, isFrame⟩
      exact ⟨id, frame, contains, isFrame⟩
  | _ => contradiction

theorem Storing.step {past : History (Process Id) (Action Id)} {process after : Process Id}
    {given : ℕ → Option ℕ} {action : Action Id}
    (storing : Storing setup heapFrame past process given) (alone : ReadsAlone process action)
    (fresh : ServesFresh setup process action)
    (stepped : FaultHandler.step setup process action = some after) :
    ∃ given', Storing setup heapFrame ((process, action) :: past) after given' := by
  have serving := storing.serving
  rcases serving.step_pending storing.pending alone fresh stepped with
    ⟨given', servingAfter, pendingAfter⟩
  have keeps : ∀ {id : Id} {address frame : ℕ}, (setup.region id).Contains address →
      translate process.mem setup.root address = some frame → _ :=
    fun contains installed =>
      serving.step_keeps storing.pending fresh stepped contains installed
  refine ⟨given', servingAfter, pendingAfter, ?_, ?_⟩
  · intro moment moment_mem id address frame contains installed
    rcases List.mem_cons.mp moment_mem with rfl | older
    · exact (keeps contains installed).1
    · exact (keeps contains (storing.installed moment older contains installed)).1
  · intro address byte stored
    rw [lastStore_cons] at stored
    cases written : storedBy address action with
    | none =>
        rw [written, Option.none_or] at stored
        rcases storing.stored stored with ⟨⟨id, contains⟩, loaded⟩
        rcases translate_of_loadByte loaded with ⟨frame, installed⟩
        refine ⟨⟨id, contains⟩, ?_⟩
        rw [(keeps contains installed).2, written, Option.none_or, loaded]
    | some _ =>
        rw [written, Option.some_or, Option.some.injEq] at stored
        subst byte
        rcases mapped_of_storedBy written stepped with ⟨id, frame, contains, installed⟩
        refine ⟨⟨id, contains⟩, ?_⟩
        rw [(keeps contains installed).2, written, Option.some_or]

theorem storing_of_run {mem : Bytes} (environment : Environment setup heapFrame mem)
    (missing : Missing setup mem) {past : History (Process Id) (Action Id)}
    {process : Process Id} (run : Run (step setup) (start mem) past process)
    (alone : Guarded ReadsAlone past) (fresh : Guarded (ServesFresh setup) past) :
    ∃ given, Storing setup heapFrame past process given := by
  induction run with
  | start =>
      exact ⟨_, start_serving environment missing, by simp [start, Pc.Pending], by simp,
        by simp [lastStore]⟩
  | step run stepped ih =>
      rcases ih alone.tail fresh.tail with ⟨given, storing⟩
      exact storing.step alone.head fresh.head stepped

end

theorem readsAlone_of_lone (past : History (Process Unit) (Action Unit)) :
    Guarded ReadsAlone past := by
  rintro ⟨process, action⟩ _
  cases action with
  | read id address => exact fun other distinct => absurd rfl distinct
  | _ => trivial

/-- For one region, in every run that reads a message only while its page is missing and whose
buffers do not end on the first page of an earlier one, an installed frame is never replaced
and the last store to every address is read back. -/
theorem stores_survive {setup : Setup Unit} {mem : Bytes}
    (environment : Environment setup heapFrame mem) (missing : Missing setup mem)
    {past : History (Process Unit) (Action Unit)} {process : Process Unit}
    (run : Run (step setup) (start mem) past process)
    (fresh : Guarded (ServesFresh setup) past) :
    (∀ moment ∈ past, ∀ address frame, (setup.region ()).Contains address →
      translate moment.1.mem setup.root address = some frame →
        translate process.mem setup.root address = some frame) ∧
    ∀ address byte, lastStore past address = some byte →
      loadByte process.mem setup.root address = some byte := by
  rcases storing_of_run environment missing run (readsAlone_of_lone past) fresh with
    ⟨given, storing⟩
  refine ⟨?_, fun address byte stored => (storing.stored stored).2⟩
  intro moment moment_mem address frame contains installed
  exact storing.installed moment moment_mem contains installed

/-- One region of anonymous memory that has served `address` with `givenPage`, before a message
for `place` is served and after a store of `7` to `stored`. -/
theorem sample_stored (address givenPage place stored : ℕ)
    (contains : ((loneSetup none).region ()).Contains address)
    (containsPlace : ((loneSetup none).region ()).Contains place)
    (containsStored : ((loneSetup none).region ()).Contains stored)
    (mallocs : (loneSetup none).Mallocs [] givenPage)
    (samePage : pageOf stored = pageOf address) :
    ∃ past mem, Guarded (ServesFresh (loneSetup none)) past ∧
      Run (step (loneSetup none)) (start sampleMemory) past
        { mem := mem
          msg := address
          pc := fun _ => .polling
          faultCnt := fun _ => 1
          queue := fun _ => [place]
          blocks := [givenPage]
          aborted := false } ∧
      Environment (loneSetup none) (fun page => page + 16) mem ∧
      translate mem 1 stored = some (givenPage / pageSize + 16) ∧
      (∃ moment ∈ past, translate moment.1.mem 1 stored = some (givenPage / pageSize + 16)) ∧
      lastStore past stored = some 7 := by
  have environment : Environment (loneSetup none) (fun page => page + 16) sampleMemory :=
    sample_environment
  have anonymous : ((loneSetup none).region ()).fd = none := rfl
  have runStart : Run (step (loneSetup none)) (start sampleMemory) [] (start sampleMemory) := .start
  have runFault := runStart.extend (.fault () address) (by simp [step, start, contains]; rfl)
  have runFaults := runFault.extend (.fault () place) (by simp [step, containsPlace]; rfl)
  rcases iteration_of_anonymous anonymous 1 0 address givenPage sampleMemory with ⟨mem, iterated⟩
  rcases environment.iteration contains mallocs iterated with ⟨environmentServed, mapped, _⟩
  rw [← translate_of_samePage samePage] at mapped
  rcases environmentServed.storeByte mallocs.2.1 mapped 7 with ⟨environmentStored, sameFrame⟩
  rcases run_iteration runFaults
    (show Guarded (ServesFresh (loneSetup none)) _ by
      intro moment past
      simp only [List.mem_cons, List.not_mem_nil, or_false] at past
      rcases past with rfl | rfl <;> trivial)
    () address givenPage rfl rfl (by simp) mallocs iterated
    (sample_missing (sampleRegion_bounds contains).1 (sampleRegion_bounds contains).2)
    (fun _ isEmpty => by simp [ServesFresh, isEmpty])
    (fun _ _ isRest => by
      simp only [List.mem_cons, List.not_mem_nil, or_false] at isRest
      rcases isRest with rfl | rfl | rfl | rfl <;> trivial)
    with ⟨recent, actions, fresh, run⟩
  simp only [Function.update_eq_const_of_subsingleton, Function.const_apply,
    List.erase_cons_head] at run
  have stores : step (loneSetup none)
      { mem := mem, msg := address, pc := fun _ => .polling, faultCnt := fun _ => 1,
        queue := fun _ => [place], blocks := [givenPage], aborted := false } (.store () stored 7) =
      some { mem := storeByte mem 1 stored 7, msg := address, pc := fun _ => .polling,
             faultCnt := fun _ => 1, queue := fun _ => [place], blocks := [givenPage],
             aborted := false } := by
    rw [step, if_neg (by simp)]
    exact if_pos ⟨containsStored, by rw [mapped]; rfl⟩
  refine ⟨_, _, ?_, run.step stores, environmentStored, ?_, ⟨_, List.mem_cons_self, mapped⟩, ?_⟩
  · intro moment moment_mem
    rcases List.mem_cons.mp moment_mem with rfl | older
    · trivial
    · exact fresh moment older
  · exact (sameFrame stored).trans mapped
  · simp [lastStore_cons, storedBy]

theorem stored_on_sample :
    ∃ past process, Run (step (loneSetup none)) (start sampleMemory) past process ∧
      Guarded (ServesFresh (loneSetup none)) past ∧ lastStore past 0x100020 = some 7 ∧
      loadByte process.mem 1 0x100020 = some 7 := by
  rcases sample_stored 0x100020 0x10010 0x100008 0x100020 (by decide) (by decide) (by decide)
    (by decide) rfl with
    ⟨past, mem, fresh, run, _, _, _, stored⟩
  refine ⟨past, _, run, fresh, stored, ?_⟩
  exact (stores_survive sample_environment sampleSetup_missing run fresh).2 _ _ stored

theorem lastStore_iteration {recent past : History (Process Id) (Action Id)} {id : Id}
    {givenPage place address : ℕ}
    (actions : recent.map Prod.snd =
      [.wake id, .update id, .resolve id, .getPfn id, .fill id givenPage, .read id place]) :
    lastStore (recent ++ past) address = lastStore past address := by
  rw [lastStore, List.map_append, List.findSome?_append, actions]
  rfl

/-- Two threads fault on one page, and the second message replaces the frame after a store. Then a
fill for another page, with a buffer just below that of the first, overwrites a store although
every message is read while its page is missing. -/
theorem stores_lost :
    Environment (loneSetup none) (fun page => page + 16) sampleMemory ∧
    Missing (loneSetup none) sampleMemory ∧
    (∃ past process, Run (step (loneSetup none)) (start sampleMemory) past process ∧
      (∃ moment ∈ past, translate moment.1.mem 1 0x100020 = some 32) ∧
      translate process.mem 1 0x100020 = some 33 ∧
      lastStore past 0x100020 = some 7 ∧ loadByte process.mem 1 0x100020 = some 66) ∧
    (∃ past process, Run (step (loneSetup none)) (start sampleMemory) past process ∧
      lastStore past 0x100004 = some 7 ∧ loadByte process.mem 1 0x100004 = some 66) := by
  refine ⟨sample_environment, sampleSetup_missing, ?_, ?_⟩
  · rcases sample_stored 0x100020 0x10010 0x100008 0x100020 (by decide) (by decide) (by decide)
      (by decide) rfl with
      ⟨past, mem, _, run, environment, _, ⟨moment, moment_mem, installed⟩, stored⟩
    have filled : ((loneSetup none).region ()).fillBytes 1 0x100008 =
        some (List.replicate pageSize 66) := rfl
    have mallocs : (loneSetup none).Mallocs [0x10010] 0x11010 := by decide
    have contains : ((loneSetup none).region ()).Contains 0x100008 := by decide
    have iterated := congrArg (Option.map (fun bytes => install 1
      (storeBytes 1 mem 0x11010 bytes) 0x100008 0x11010)) filled
    rcases run_iteration run (show Guarded (fun _ _ => True) past from fun _ _ => trivial) ()
      0x100008 0x11010 rfl rfl (by simp) mallocs iterated trivial (fun _ _ => trivial)
      (fun _ _ _ => trivial) with ⟨recent, actions, _, runAgain⟩
    rcases environment.regionSlot contains with ⟨table, found⟩
    have replaced := (environment.iteration contains mallocs iterated).2.1
    have shown := environment.loadByte_iteration contains found mallocs filled iterated
      (show 0x20 < pageSize by decide)
    rw [if_pos (by decide), List.getElem?_replicate, if_pos (by decide)] at shown
    refine ⟨_, _, runAgain, ⟨moment, List.mem_append_right _ moment_mem, installed⟩, replaced, ?_,
      shown⟩
    rw [lastStore_iteration actions, stored]
  · rcases sample_stored 0x100004 0x11010 0x101000 0x100004 (by decide) (by decide) (by decide)
      (by decide) rfl with
      ⟨past, mem, _, run, environment, mapped, _, stored⟩
    have filled : ((loneSetup none).region ()).fillBytes 1 0x101000 =
        some (List.replicate pageSize 66) := rfl
    have mallocs : (loneSetup none).Mallocs [0x11010] 0x10010 := by decide
    have contains : ((loneSetup none).region ()).Contains 0x101000 := by decide
    have iterated := congrArg (Option.map (fun bytes => install 1
      (storeBytes 1 mem 0x10010 bytes) 0x101000 0x10010)) filled
    rcases run_iteration run (show Guarded (fun _ _ => True) past from fun _ _ => trivial) ()
      0x101000 0x10010 rfl rfl (by simp) mallocs iterated trivial (fun _ _ => trivial)
      (fun _ _ _ => trivial) with ⟨recent, actions, _, runAgain⟩
    rcases environment.regionSlot contains with ⟨table, found⟩
    have shown := environment.loadByte_iteration_of_ne found mallocs filled iterated (by decide)
      (by decide) mapped
    rw [if_pos (by decide), List.getElem?_replicate, if_pos (by decide)] at shown
    refine ⟨_, _, runAgain, ?_, shown⟩
    rw [lastStore_iteration actions, stored]

end UserLevelMmap.FaultHandler
