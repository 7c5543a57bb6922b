import UserLevelMmap.FaultHandler.Registry

/-!
# The permissions of installed pages

`ul_mmap` gives `prot` to the kernel's `mmap` and to nothing else. The handler assembles
the entry of a page from the entry it has resolved: it sets `RW` in every case and leaves
`NX` as it was. The entry grants no more than `prot` only where `prot` allows writing, and
allows execution unless `NX` was already set.

The address of an update is read from the shared message buffer, so the page that gets the
entry may differ from the page that was resolved. The condition therefore speaks about the
region of the updated page and the entry that the handler resolved last.
-/

namespace UserLevelMmap.FaultHandler

open PageTable

/-- `PTEDIT_PAGE_BIT_NX`. -/
def pteditPageBitNx : ℕ := 63

/-- `PROT_WRITE`. -/
def protWrite : BitVec 32 := 2#32

/-- `PROT_EXEC`. -/
def protExec : BitVec 32 := 4#32

/-- The entry grants no more than `prot`. -/
def Respects (prot : BitVec 32) (entry : Entry) : Prop :=
  (entry.getLsbD pteditPageBitRw = true → prot &&& protWrite ≠ 0) ∧
    (entry.getLsbD pteditPageBitNx = false → prot &&& protExec ≠ 0)

theorem getLsbD_rw_installedEntry (old pfn : BitVec 64) :
    (installedEntry old pfn).getLsbD pteditPageBitRw = true := by
  rw [getLsbD_installedEntry]
  simp [pteditPageBitRw]

theorem getLsbD_nx_installedEntry (old : BitVec 64) {pfn : BitVec 64}
    (small : pfn.toNat < 2 ^ 40) :
    (installedEntry old pfn).getLsbD pteditPageBitNx = old.getLsbD pteditPageBitNx := by
  have noBit : pfn.getLsbD 51 = false := by
    apply Nat.testBit_lt_two_pow
    exact Nat.lt_trans small (by decide)
  have shifted : (pfn <<< 12).getLsbD pteditPageBitNx = false := by
    rw [BitVec.getLsbD_shiftLeft, Bool.and_eq_false_iff]
    right
    exact noBit
  rw [getLsbD_installedEntry, pteditSetPfn, BitVec.getLsbD_or, BitVec.getLsbD_and,
    BitVec.getLsbD_not, getLsbD_pfnMask, shifted]
  simp [pteditPageBitNx]

theorem respects_installedEntry_iff {prot : BitVec 32} {old pfn : BitVec 64}
    (small : pfn.toNat < 2 ^ 40) :
    Respects prot (installedEntry old pfn) ↔
      prot &&& protWrite ≠ 0 ∧
        (prot &&& protExec ≠ 0 ∨ old.getLsbD pteditPageBitNx = true) := by
  rw [Respects, getLsbD_rw_installedEntry, getLsbD_nx_installedEntry old small]
  cases old.getLsbD pteditPageBitNx with
  | false => simp
  | true => simp

namespace MmapProcess

variable {Id Caller : Type} [DecidableEq Id]

/-- The entry that a step resolves in the handler of a region. -/
def resolvedBy (mappings : Mappings Id) (id : Id) (system : MmapProcess Id Caller) :
    MmapAction Id Caller → Option Entry
  | .handler (.resolve actor) =>
      if actor = id then
        some (pteditResolve (ownRoot mappings.root) system.process.mem system.process.msg 0).pte
      else none
  | _ => none

/-- The entry that the handler of a region has resolved last. -/
def resolvedLast (mappings : Mappings Id) (id : Id)
    (past : History (MmapProcess Id Caller) (MmapAction Id Caller)) : Option Entry :=
  past.findSome? (fun moment => resolvedBy mappings id moment.1 moment.2)

/-- What the locals of a handler are after its earlier steps. -/
def Carries (resolved : Option Entry) : Pc → Prop
  | .located givenPagePfn => givenPagePfn.toNat < 2 ^ 40
  | .resolved vm => ∃ old givenPagePfn, resolved = some old ∧ givenPagePfn.toNat < 2 ^ 40 ∧
      vm.pte = installedEntry old givenPagePfn ∧ vm.valid = pteditValidMaskPte
  | _ => True

variable {mappings : Mappings Id} {id : Id}
  {past : History (MmapProcess Id Caller) (MmapAction Id Caller)}
  {system after : MmapProcess Id Caller} {action : MmapAction Id Caller}

theorem resolvedLast_cons (none_eq : resolvedBy mappings id system action = none) :
    resolvedLast mappings id ((system, action) :: past) = resolvedLast mappings id past := by
  simp only [resolvedLast, List.findSome?_cons, none_eq]

theorem resolvedLast_resolve :
    resolvedLast mappings id ((system, .handler (.resolve id)) :: past) =
      some (pteditResolve (ownRoot mappings.root) system.process.mem system.process.msg 0).pte := by
  simp only [resolvedLast, List.findSome?_cons, resolvedBy, if_true]

/-- The locals of a handler after a step of another handler, or of none. -/
theorem carries_of_pc_eq {pc : Pc} (none_eq : resolvedBy mappings id system action = none)
    (same : pc = system.process.pc id)
    (carries : Carries (resolvedLast mappings id past) (system.process.pc id)) :
    Carries (resolvedLast mappings id ((system, action) :: past)) pc := by
  rw [resolvedLast_cons none_eq, same]
  exact carries

/-- A step of the handlers keeps their locals. -/
theorem carries_of_handler {process : Process Id} {action : Action Id}
    (carries : ∀ id, Carries (resolvedLast mappings id past) (system.process.pc id))
    (stepped : FaultHandler.step mappings.toSetup system.process action = some process) (id : Id) :
    Carries (resolvedLast mappings id ((system, .handler action) :: past)) (process.pc id) := by
  -- The handler that takes the step is in `pc`; the others have not resolved anything.
  have moved : ∀ {actor : Id} {pc : Pc},
      Carries (resolvedLast mappings actor ((system, .handler action) :: past)) pc →
        (id ≠ actor → resolvedBy mappings id system (.handler action) = none) →
          Carries (resolvedLast mappings id ((system, .handler action) :: past))
            (Function.update system.process.pc actor pc id) := by
    intro actor pc carriesPc others
    by_cases isActor : id = actor
    · subst id
      rwa [Function.update_self]
    · apply carries_of_pc_eq (others isActor) _ (carries id)
      exact Function.update_of_ne isActor _ _
  cases FaultHandler.step_effect stepped with
  | fault actor address contains => exact carries_of_pc_eq rfl rfl (carries id)
  | store actor address byte contains mapped => exact carries_of_pc_eq rfl rfl (carries id)
  | abort actor givenPage at_pc fails => exact carries_of_pc_eq rfl rfl (carries id)
  | read actor address at_pc queued => exact moved trivial (fun _ => rfl)
  | fill actor givenPage bytes at_pc mallocs filled => exact moved trivial (fun _ => rfl)
  | getPfn actor givenPage at_pc => exact moved (pfn_lt mappings.root_pos) (fun _ => rfl)
  | resolve actor givenPagePfn at_pc =>
      have small := carries actor
      rw [at_pc] at small
      apply moved
      · exact ⟨_, givenPagePfn, resolvedLast_resolve, small, rfl, rfl⟩
      · intro isOther
        exact if_neg (Ne.symm isOther)
  | update actor vm at_pc => exact moved trivial (fun _ => rfl)
  | wake actor at_pc => exact moved trivial (fun _ => rfl)

theorem effect_pc {caller : Caller} {mem : Bytes} {pc : CallerPc Id} :
    (system.effect mappings caller mem pc).process.pc = system.process.pc := by
  cases pc <;> rfl

section Run

variable [DecidableEq Caller] {mem : Bytes}

theorem carries_of_step
    (carries : ∀ id, Carries (resolvedLast mappings id past) (system.process.pc id))
    (stepped : system.step mappings action = some after) (id : Id) :
    Carries (resolvedLast mappings id ((system, action) :: past)) (after.process.pc id) := by
  have notHandler : (∀ handled, action ≠ .handler handled) →
      resolvedBy mappings id system action = none := by
    intro isOther
    cases action with
    | handler handled => exact absurd rfl (isOther handled)
    | _ => rfl
  cases step_effect stepped with
  | advance caller mem pc continues =>
      apply carries_of_pc_eq (notHandler (by simp)) _ (carries id)
      exact congrFun effect_pc id
  | handler action process allowed handled => exact carries_of_handler carries handled id
  | _ => exact carries_of_pc_eq (notHandler (by simp)) rfl (carries id)

theorem carries_of_run (run : Run (step mappings) (initial mem) past system) (id : Id) :
    Carries (resolvedLast mappings id past) (system.process.pc id) := by
  induction run generalizing id with
  | start => trivial
  | step run stepped ih => exact carries_of_step ih stepped id

/-- The entry that an update leaves, from the entry that its handler has resolved. -/
theorem update_respects_iff (run : Run (step mappings) (initial mem) past system)
    (stepped : system.step mappings (.handler (.update id)) = some after) {table : ℕ}
    (found : pteditTable system.process.mem mappings.root system.process.msg = some table)
    (prot : BitVec 32) :
    Respects prot (slots after.process.mem table (leafIndex system.process.msg)) ↔
      prot &&& protWrite ≠ 0 ∧ (prot &&& protExec ≠ 0 ∨
        ∃ old, resolvedLast mappings id past = some old ∧ old.getLsbD pteditPageBitNx = true) := by
  have carries := carries_of_run run id
  cases step_effect stepped with
  | handler action process allowed handled =>
      cases FaultHandler.step_effect handled with
      | update actor vm at_pc =>
          rw [at_pc] at carries
          rcases carries with ⟨old, givenPagePfn, resolved, small, pte_eq, onlyPte⟩
          have written : slots (pteditUpdate (ownRoot mappings.root) system.process.mem
              system.process.msg 0 vm) table (leafIndex system.process.msg) =
                installedEntry old givenPagePfn := by
            rw [pteditUpdate_eq mappings.root_pos onlyPte, found, ← pte_eq]
            exact slots_writeWord_self
          simp only [written, respects_installedEntry_iff small, resolved, Option.some.injEq,
            exists_eq_left']

/-- An update leaves an entry that grants no more than the `prot` of the region of its page. -/
def RespectsProt (mappings : Mappings Id)
    (_past : History (MmapProcess Id Caller) (MmapAction Id Caller))
    (before : MmapProcess Id Caller) (action : MmapAction Id Caller)
    (after : MmapProcess Id Caller) : Prop :=
  ∀ id region table, action = .handler (.update id) →
    before.vma before.process.msg = some region →
      pteditTable before.process.mem mappings.root before.process.msg = some table →
        Respects (mappings.prot region)
          (slots after.process.mem table (leafIndex before.process.msg))

/-- The region of an updated page may be written; it may be executed, or the handler has
resolved an entry with `NX`. -/
def Permitted (mappings : Mappings Id)
    (past : History (MmapProcess Id Caller) (MmapAction Id Caller))
    (before : MmapProcess Id Caller) (action : MmapAction Id Caller)
    (_after : MmapProcess Id Caller) : Prop :=
  ∀ id region table, action = .handler (.update id) →
    before.vma before.process.msg = some region →
      pteditTable before.process.mem mappings.root before.process.msg = some table →
        mappings.prot region &&& protWrite ≠ 0 ∧ (mappings.prot region &&& protExec ≠ 0 ∨
          ∃ old, resolvedLast mappings id past = some old ∧ old.getLsbD pteditPageBitNx = true)

/-- In every run, the installed entries all respect the `prot` of their regions exactly when
every update is for a region that may be written, and that may be executed unless the handler
has resolved an entry with `NX`. -/
theorem installed_respect_prot_iff (run : Run (step mappings) (initial mem) past system) :
    EveryStep (RespectsProt mappings) past system ↔ EveryStep (Permitted mappings) past system := by
  apply run.everyStep_iff
  intro older before after action runBefore stepped
  constructor
  · rintro respects id region table rfl covers found
    exact (update_respects_iff runBefore stepped found _).mp
      (respects id region table rfl covers found)
  · rintro permitted id region table rfl covers found
    exact (update_respects_iff runBefore stepped found _).mpr
      (permitted id region table rfl covers found)

theorem Comes.update_enabled {origin : MmapProcess Id Caller} {caller : Caller} {pc : CallerPc Id}
    (comes : Comes mappings origin system caller pc) {vm : PteditEntry}
    (running : system.thread id = .running) (at_pc : system.process.pc id = .resolved vm) :
    ∃ past after, Run (step mappings) origin past (system.goto caller pc) ∧
      (system.goto caller pc).step mappings (.handler (.update id)) = some after := by
  rcases comes with ⟨⟨past, run⟩, notEnded⟩
  have goesOn : (system.goto caller pc).ended = false := notEnded
  have allowed : (system.goto caller pc).Allows (.update id) := running
  have notAborted : (system.goto caller pc).process.aborted = false := by
    rw [ended, Bool.or_eq_false_iff] at goesOn
    exact goesOn.2
  have resolved : (system.goto caller pc).process.pc id = .resolved vm := at_pc
  have enabled : ((system.goto caller pc).step mappings (.handler (.update id))).isSome := by
    simp [step, goesOn, allowed, FaultHandler.step, notAborted, resolved]
  rcases Option.isSome_iff_exists.mp enabled with ⟨after, stepped⟩
  exact ⟨past, after, run, stepped⟩

end Run

/-! ## A fault in the sample region -/

theorem sample_resolved (prot : BitVec 32) :
    ∃ (past : History (MmapProcess Unit Unit) (MmapAction Unit Unit))
      (system after : MmapProcess Unit Unit),
      Run (step (sampleMappings prot)) (initial sampleMemory) past system ∧
        system.step (sampleMappings prot) (.handler (.update ())) = some after ∧
        system.vma system.process.msg = some () ∧
        ∃ table, pteditTable system.process.mem (sampleMappings prot).root system.process.msg =
          some table := by
  rcases sample_mapped prot with ⟨mapped, comes, isMapped⟩
  have contains : ((sampleMappings prot).region ()).Contains 0x100234 :=
    (by decide : ((loneSetup none).region ()).Contains 0x100234)
  have mallocs : (sampleMappings prot).Mallocs [] 0x10010 :=
    (by decide : (loneSetup none).Mallocs [] 0x10010)
  have fills : ∃ bytes, ((sampleMappings prot).region ()).fillBytes 0 0x100234 = some bytes :=
    ⟨_, rfl⟩
  rcases fills with ⟨bytes, filled⟩
  have covers : mapped.vma 0x100234 = some () := by
    rw [isMapped.vma]
    exact if_pos contains
  have armed : mapped.Allows (.fault () 0x100234) := by
    rw [Allows, isMapped.armed]
    exact if_pos contains
  have threads : mapped.thread () = .running := by
    rw [isMapped.thread]
    exact Function.update_self _ _ _
  have started : mapped.process = start sampleMemory := isMapped.process
  have faulted := comes.handle (.fault () 0x100234) armed
    (by rw [started]; simp [FaultHandler.step, start, contains]; rfl) rfl
  have received := faulted.handle (.read () 0x100234) threads
    (by simp [FaultHandler.step]; rfl) rfl
  have written := received.handle (.fill () 0x10010) threads
    (by simp [FaultHandler.step, mallocs, filled]; rfl) rfl
  have located := written.handle (.getPfn ()) threads (by simp [FaultHandler.step]; rfl) rfl
  have resolved := located.handle (.resolve ()) threads
    (by simp [FaultHandler.step, Process.goto]; rfl) rfl
  have environment : Environment (sampleMappings prot).toSetup (fun page => page + 16)
      sampleMemory := sample_environment
  have environmentFilled := (environment.storeBytes
    (HeapLayout.fill_onHeap mallocs filled)).1
  rcases environmentFilled.regionSlot contains with ⟨table, found⟩
  have foundTable := environmentFilled.tables.pteditTable_of_hardwareTable found
  rcases resolved.update_enabled threads rfl with ⟨past, after, run, stepped⟩
  exact ⟨past, _, after, run, stepped, covers, table, foundTable⟩

/-- A page of a region with all permissions is installed. -/
theorem rwx_page_on_sample :
    ∃ (past : History (MmapProcess Unit Unit) (MmapAction Unit Unit))
      (before system : MmapProcess Unit Unit),
      Run (step (sampleMappings 7)) (initial sampleMemory)
          ((before, .handler (.update ())) :: past) system ∧
        before.vma before.process.msg = some () ∧
        EveryStep (RespectsProt (sampleMappings 7)) ((before, .handler (.update ())) :: past)
          system := by
  rcases sample_resolved 7 with ⟨past, before, system, run, stepped, covers, _⟩
  have updated := run.step stepped
  refine ⟨past, before, system, updated, covers, (installed_respect_prot_iff updated).mpr ?_⟩
  apply EveryStep.of_forall
  intro older state action after id region table _ _ _
  exact ⟨(by decide : (7#32 &&& protWrite) ≠ 0), Or.inl (by decide : (7#32 &&& protExec) ≠ 0)⟩

/-- A page of a region with `PROT_READ` only is installed with `RW`. -/
theorem read_only_page_gets_rw :
    ¬∀ (past : History (MmapProcess Unit Unit) (MmapAction Unit Unit))
      (system : MmapProcess Unit Unit),
      Run (step (sampleMappings 1)) (initial sampleMemory) past system →
        EveryStep (RespectsProt (sampleMappings 1)) past system := by
  intro always
  rcases sample_resolved 1 with ⟨past, before, system, run, stepped, covers, table, found⟩
  have respects := (always _ system (run.step stepped)).1 () () table rfl covers found
  have writable := ((update_respects_iff run stepped found _).mp respects).1
  exact writable (by decide : (1#32 &&& protWrite) = 0)

end MmapProcess

end UserLevelMmap.FaultHandler
