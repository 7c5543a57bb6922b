import UserLevelMmap.Library.Simulation
import UserLevelMmap.PageTable.Walked

/-!
# Editing last entries

`ptedit_pte_set_bit`, `ptedit_pte_clear_bit` and `ptedit_pte_set_pfn` edit the last entry of
an address in two halves: `ptedit_resolve` reads it, and `ptedit_update` walks the tables
again and writes the word. Seen from outside, the last entries are a map from page numbers
to words. Threads that do not edit one page at the same time edit this map atomically, with
the update as the moment of the edit, and the entries of all other pages stay.
-/

namespace UserLevelMmap.PageTable

open RadixTree

/-! ## The functions of the library -/

/-- What an edit puts in the place of an entry. -/
inductive Edit where
  | setBit (bit : Fin 64)
  | clearBit (bit : Fin 64)
  | setPfn (pfn : BitVec 64)
  deriving DecidableEq

def Edit.apply : Edit → Entry → Entry
  | .setBit bit, pte => pteditPteEntrySetBit pte bit
  | .clearBit bit, pte => pte &&& ~~~(1#64 <<< bit.val)
  | .setPfn pfn, pte => pteditSetPfn pte pfn

/-- The first half of an edit; `none` when the address has no last entry. -/
def editResolve (pagingRoot : ℕ → ℕ) (mem : Bytes) (address pid : ℕ) (edit : Edit) :
    Option PteditEntry :=
  let vm := pteditResolve pagingRoot mem address pid
  if vm.valid &&& pteditValidMaskPte = 0 then none
  else some { vm with pte := edit.apply vm.pte, valid := pteditValidMaskPte }

/-- The body that the three functions share. -/
def editPte (pagingRoot : ℕ → ℕ) (mem : Bytes) (address pid : ℕ) (edit : Edit) : Bytes :=
  match editResolve pagingRoot mem address pid edit with
  | none => mem
  | some vm => pteditUpdate pagingRoot mem address pid vm

/-- `ptedit_pte_set_bit`. -/
def pteditPteSetBit (pagingRoot : ℕ → ℕ) (mem : Bytes) (address pid : ℕ) (bit : Fin 64) : Bytes :=
  editPte pagingRoot mem address pid (.setBit bit)

/-- `ptedit_pte_clear_bit`. -/
def pteditPteClearBit (pagingRoot : ℕ → ℕ) (mem : Bytes) (address pid : ℕ) (bit : Fin 64) :
    Bytes :=
  editPte pagingRoot mem address pid (.clearBit bit)

/-- `ptedit_pte_set_pfn`. -/
def pteditPteSetPfn (pagingRoot : ℕ → ℕ) (mem : Bytes) (address pid : ℕ) (pfn : BitVec 64) :
    Bytes :=
  editPte pagingRoot mem address pid (.setPfn pfn)

/-- `ptedit_pte_get_bit`, which does not look at `valid`. -/
def pteditPteGetBit (pagingRoot : ℕ → ℕ) (mem : Bytes) (address pid : ℕ) (bit : Fin 64) : Bool :=
  (pteditResolve pagingRoot mem address pid).pte &&& (1#64 <<< bit.val) ≠ 0

/-! ## The last entries as a map -/

/-- The record with another last entry. -/
def PteditEntry.withPte (vm : PteditEntry) (pte : Entry) : PteditEntry :=
  { vm with pte := pte }

/-- The last entry on the walk of the library for an address. -/
def lastEntry (mem : Bytes) (root address : ℕ) : Option Entry :=
  (pteditTable mem root address).map (fun table => slots mem table (leafIndex address))

/-- The last entries by page number. -/
abbrev PageMap := ℕ → Option Entry

/-- The atomic edit of the entry of a page; a page without one cannot be edited. -/
def PageMap.step : Transition PageMap (ℕ × Edit) :=
  fun map label => (map label.1).map (fun entry =>
    Function.update map label.1 (some (label.2.apply entry)))

/-- The map in memory. -/
def pageMap (mem : Bytes) (root : ℕ) : PageMap :=
  fun page => lastEntry mem root (page * pteditPfnMultiply)

variable {mem mem' : Bytes} {root address other : ℕ}

theorem lastEntry_of_samePage (samePage : pageOf other = pageOf address) :
    lastEntry mem root other = lastEntry mem root address := by
  rw [lastEntry, lastEntry, pteditTable_of_samePage samePage, leafIndex_of_samePage samePage]

theorem lastEntry_eq_pageMap : lastEntry mem root address = pageMap mem root (pageOf address) := by
  apply lastEntry_of_samePage
  simp only [pageOf, pteditPfnMultiply]
  omega

theorem getLsbD_shiftLeft_one {bit : Fin 64} (i : ℕ) :
    (1#64 <<< bit.val).getLsbD i = decide (i = bit) := by
  have setsBit := getLsbD_setBit 0 bit.isLt i
  rw [pteditPteEntrySetBit, BitVec.getLsbD_or] at setsBit
  simpa using setsBit

theorem and_shiftLeft_one_ne_zero (pte : BitVec 64) (bit : Fin 64) :
    pte &&& (1#64 <<< bit.val) ≠ 0 ↔ pte.getLsbD bit = true := by
  constructor
  · intro notZero
    by_contra isClear
    rw [Bool.not_eq_true] at isClear
    apply notZero
    apply BitVec.eq_of_getLsbD_eq
    intro i bound
    rw [BitVec.getLsbD_and, getLsbD_shiftLeft_one]
    by_cases isBit : i = bit
    · rw [isBit, isClear, Bool.false_and]
      simp
    · simp [isBit]
  · intro isSet isZero
    have bit_eq := congrArg (fun word => BitVec.getLsbD word bit) isZero
    simp only [BitVec.getLsbD_and, getLsbD_shiftLeft_one, isSet, decide_true,
      Bool.and_self] at bit_eq
    simp at bit_eq

theorem pteditResolve_pte (root_pos : 0 < root) :
    (pteditResolve (ownRoot root) mem address 0).pte = (lastEntry mem root address).getD 0 := by
  unfold lastEntry
  cases found : pteditTable mem root address with
  | some table => exact (pteditResolve_of_table root_pos found).2.2
  | none =>
      rw [pteditTable_eq] at found
      rw [pteditResolve_eq root_pos]
      dsimp only at found ⊢
      split_ifs at found ⊢
      all_goals rfl

/-- `ptedit_pte_get_bit` reads the map. -/
theorem pteditPteGetBit_eq (root_pos : 0 < root) (bit : Fin 64) :
    pteditPteGetBit (ownRoot root) mem address 0 bit =
      (lastEntry mem root address).any (fun entry => entry.getLsbD bit) := by
  rw [pteditPteGetBit, pteditResolve_pte root_pos, Bool.eq_iff_iff, decide_eq_true_iff,
    and_shiftLeft_one_ne_zero]
  cases lastEntry mem root address with
  | none => simp
  | some entry => simp

/-- `ptedit_pte_get_pfn` reads the map. -/
theorem pteditPteGetPfn_eq_lastEntry (root_pos : 0 < root) :
    pteditPteGetPfn (ownRoot root) mem address 0 =
      ((lastEntry mem root address).map pteditGetPfn).getD 0 := by
  rw [pteditPteGetPfn_eq root_pos, lastEntry]
  cases pteditTable mem root address with
  | none => rfl
  | some table => rfl

/-- The first half of an edit reads the map. -/
theorem editResolve_eq (root_pos : 0 < root) (edit : Edit) :
    editResolve (ownRoot root) mem address 0 edit =
      (lastEntry mem root address).map (fun entry =>
        { pteditResolve (ownRoot root) mem address 0 with
          pte := edit.apply entry
          valid := pteditValidMaskPte }) := by
  unfold editResolve lastEntry
  cases found : pteditTable mem root address with
  | none => simp [pteditResolve_of_noTable root_pos found]
  | some table =>
      rcases pteditResolve_of_table root_pos found with ⟨valid_eq, _, pte_eq⟩
      simp only [valid_eq, pte_eq, Option.map_some]
      rfl

namespace WalkedTables

section Write

variable {table : ℕ} {word : BitVec 64}

theorem tableAt_writeWord (walked : WalkedTables mem root)
    (found : pteditTable mem root address = some table) {path : List (Fin 512)}
    (short : path.length < 4) :
    tableAt (slots (mem.writeWord (entryAddress table (leafIndex address)) word))
        walkChild 0 root path =
      tableAt (slots mem) walkChild 0 root path := by
  have foundWalk := found
  rw [pteditTable, walked.pteditTableAt (by simp [directory])] at foundWalk
  exact walked.tree.tableAt_write rfl foundWalk
    (fun _ _ distinct => slots_writeWord_of_ne distinct) (by omega)

theorem writeWord (walked : WalkedTables mem root)
    (found : pteditTable mem root address = some table) :
    WalkedTables (mem.writeWord (entryAddress table (leafIndex address)) word) root where
  tree := walked.tree.congr (walked.tableAt_writeWord found)
  root_pos := walked.root_pos
  window := by
    rintro frame ⟨path, short, foundFrame⟩
    rw [walked.tableAt_writeWord found short] at foundFrame
    exact walked.window ⟨path, short, foundFrame⟩

theorem pteditTable_writeWord (walked : WalkedTables mem root)
    (found : pteditTable mem root address = some table) (other : ℕ) :
    pteditTable (mem.writeWord (entryAddress table (leafIndex address)) word) root other =
      pteditTable mem root other := by
  have short : (directory other).length < 4 := by simp [directory]
  rw [pteditTable, pteditTable, (walked.writeWord found).pteditTableAt short,
    walked.pteditTableAt short, walked.tableAt_writeWord found short]

theorem lastEntry_writeWord (walked : WalkedTables mem root)
    (found : pteditTable mem root address = some table) (other : ℕ) :
    lastEntry (mem.writeWord (entryAddress table (leafIndex address)) word) root other =
      if pageOf other = pageOf address then some word else lastEntry mem root other := by
  unfold lastEntry
  rw [walked.pteditTable_writeWord found]
  by_cases samePage : pageOf other = pageOf address
  · rw [if_pos samePage, pteditTable_of_samePage samePage, found, Option.map_some,
      leafIndex_of_samePage samePage, slots_writeWord_self]
  · rw [if_neg samePage]
    cases foundOther : pteditTable mem root other with
    | none => rw [Option.map_none, Option.map_none]
    | some table' =>
        rw [Option.map_some, Option.map_some, Option.some.injEq]
        have isPath : directory other ++ [leafIndex other] <+: path other := List.prefix_refl _
        apply (walked.unshared found).slots_write isPath foundOther
        intro same
        exact samePage (path_eq_iff.mp same)

theorem translate_writeWord_of_ne (walked : WalkedTables mem root)
    (found : pteditTable mem root address = some table)
    (otherPage : pageOf other ≠ pageOf address) :
    translate (mem.writeWord (entryAddress table (leafIndex address)) word) root other =
      translate mem root other := by
  apply translate_congr
  intro above index frame isPrefix foundFrame
  apply (walked.unshared found).slots_write isPrefix
  · rw [walked.pteditTableAt (length_lt_of_onPath isPrefix)]
    exact walkTable_of_hardwareTable foundFrame
  · intro same
    rw [same] at isPrefix
    exact otherPage (path_eq_iff.mp (isPrefix.eq_of_length rfl)).symm

end Write

section Update

variable {vm : PteditEntry}

/-- Both kinds of update of a last entry: the word is written, or there is no entry. -/
theorem pteditUpdate_cases (walked : WalkedTables mem root)
    (onlyPte : vm.valid = pteditValidMaskPte) (address : ℕ) :
    (lastEntry mem root address = none ∧ pteditUpdate (ownRoot root) mem address 0 vm = mem) ∨
    (∃ table, pteditTable mem root address = some table ∧
      pteditUpdate (ownRoot root) mem address 0 vm =
        mem.writeWord (entryAddress table (leafIndex address)) vm.pte) := by
  rw [pteditUpdate_eq walked.root_pos onlyPte, lastEntry]
  cases found : pteditTable mem root address with
  | none => exact Or.inl ⟨rfl, rfl⟩
  | some table => exact Or.inr ⟨table, rfl, rfl⟩

theorem update (walked : WalkedTables mem root) (onlyPte : vm.valid = pteditValidMaskPte) :
    WalkedTables (pteditUpdate (ownRoot root) mem address 0 vm) root := by
  rcases walked.pteditUpdate_cases onlyPte address with
    ⟨_, update_eq⟩ | ⟨table, found, update_eq⟩
  · rw [update_eq]
    exact walked
  · rw [update_eq]
    exact walked.writeWord found

theorem lastEntry_update (walked : WalkedTables mem root)
    (onlyPte : vm.valid = pteditValidMaskPte) (other : ℕ) :
    lastEntry (pteditUpdate (ownRoot root) mem address 0 vm) root other =
      if pageOf other = pageOf address then (lastEntry mem root other).map (fun _ => vm.pte)
      else lastEntry mem root other := by
  rcases walked.pteditUpdate_cases onlyPte address with
    ⟨isNone, update_eq⟩ | ⟨table, found, update_eq⟩
  · rw [update_eq]
    split_ifs with samePage
    · rw [lastEntry_of_samePage samePage, isNone, Option.map_none]
    · rfl
  · rw [update_eq, walked.lastEntry_writeWord found]
    split_ifs with samePage
    · rw [lastEntry_of_samePage samePage, lastEntry, found, Option.map_some, Option.map_some]
    · rfl

theorem pteditResolve_update (walked : WalkedTables mem root)
    (onlyPte : vm.valid = pteditValidMaskPte) (other : ℕ) (pte : Entry) :
    (pteditResolve (ownRoot root) (pteditUpdate (ownRoot root) mem address 0 vm) other 0).withPte
        pte =
      (pteditResolve (ownRoot root) mem other 0).withPte pte := by
  rcases walked.pteditUpdate_cases onlyPte address with
    ⟨_, update_eq⟩ | ⟨table, found, update_eq⟩
  · rw [update_eq]
  · rw [update_eq]
    by_cases samePage : pageOf other = pageOf address
    · rw [(walked.unshared found).pteditResolve_writeWord_of_samePage walked.root_pos found
        samePage]
      rfl
    · rw [(walked.unshared found).pteditResolve_writeWord_of_ne walked.root_pos samePage]

theorem update_of_ne (walked : WalkedTables mem root)
    (onlyPte : vm.valid = pteditValidMaskPte) (otherPage : pageOf other ≠ pageOf address) :
    pteditResolve (ownRoot root) (pteditUpdate (ownRoot root) mem address 0 vm) other 0 =
        pteditResolve (ownRoot root) mem other 0 ∧
      translate (pteditUpdate (ownRoot root) mem address 0 vm) root other =
        translate mem root other := by
  rcases walked.pteditUpdate_cases onlyPte address with
    ⟨_, update_eq⟩ | ⟨table, found, update_eq⟩
  · rw [update_eq]
    exact ⟨rfl, rfl⟩
  · rw [update_eq]
    exact ⟨(walked.unshared found).pteditResolve_writeWord_of_ne walked.root_pos otherPage,
      walked.translate_writeWord_of_ne found otherPage⟩

end Update

end WalkedTables

/-! ## A chain of tables -/

/-- Tables in the frames `1` to `4`, each behind the first entry of the one before; the last one
maps page `n` to frame `n + 8`. -/
def chainEntries (frame : ℕ) (index : Fin 512) : Entry :=
  if frame < 4 then
    if index.val = 0 then BitVec.ofNat 64 ((frame + 1) * 4096 + 7) else 0
  else if frame = 4 then BitVec.ofNat 64 ((index.val + 8) * 4096 + 7)
  else 0

def chainMemory : Bytes :=
  ofEntries chainEntries

theorem chain_tableAt {path : List (Fin 512)} {frame : ℕ} (short : path.length < 4)
    (found : tableAt (slots chainMemory) walkChild 0 1 path = some frame) :
    path = List.replicate path.length 0 ∧ frame = path.length + 1 := by
  induction path using List.reverseRecOn generalizing frame with
  | nil =>
      rw [tableAt, Option.some.injEq] at found
      exact ⟨rfl, found.symm⟩
  | append_singleton path index ih =>
      rw [List.length_append, List.length_singleton] at short
      rw [tableAt_append, Option.bind_eq_some_iff] at found
      rcases found with ⟨table, foundTable, child⟩
      rcases ih (by omega) foundTable with ⟨path_eq, rfl⟩
      rw [chainMemory, slots_ofEntries, chainEntries, if_pos (by omega), Nat.zero_add] at child
      by_cases isFirst : index.val = 0
      · have isZero : index = 0 := Fin.ext isFirst
        rw [if_pos isFirst] at child
        have levels : path.length = 0 ∨ path.length = 1 ∨ path.length = 2 := by omega
        have next : walkChild path.length (BitVec.ofNat 64 ((path.length + 1 + 1) * 4096 + 7)) =
            some (path.length + 2) := by
          rcases levels with isLevel | isLevel | isLevel <;> rw [isLevel] <;> decide
        rw [next, Option.some.injEq] at child
        refine ⟨?_, by rw [List.length_append, List.length_singleton]; omega⟩
        rw [List.length_append, List.length_singleton, List.replicate_succ', ← path_eq, isZero]
      · have noChild : walkChild path.length 0#64 = none := by
          simp [walkChild, Entry.present]
        rw [if_neg isFirst] at child
        exact absurd (noChild.symm.trans child) (by simp)

theorem chain_walked : WalkedTables chainMemory 1 where
  tree := by
    intro path other frame short shortOther found foundOther
    rcases chain_tableAt short found with ⟨path_eq, frame_eq⟩
    rcases chain_tableAt shortOther foundOther with ⟨other_eq, frame_eq'⟩
    have sameLength : path.length = other.length := by omega
    rw [path_eq, other_eq, sameLength]
  root_pos := by decide
  window := by
    rintro frame ⟨path, short, found⟩
    have frame_eq := (chain_tableAt short found).2
    omega

/-! ## Concurrent edits -/

/-- A thread outside of the editing functions, or between the two halves of an edit. -/
inductive EditPc where
  | idle
  | resolved (address : ℕ) (edit : Edit) (vm : PteditEntry)

variable {Thread : Type}

structure Editors (Thread : Type) where
  mem : Bytes
  pc : Thread → EditPc

inductive EditAction (Thread : Type) where
  | resolve (thread : Thread) (address : ℕ) (edit : Edit)
  | update (thread : Thread)

variable [DecidableEq Thread]

/-- The two halves of the edits of all threads, in any order. The upper entries that a walk
reads stay in all these runs, so a half takes place when it reads or writes the last one. -/
def editors (root : ℕ) : Transition (Editors Thread) (EditAction Thread)
  | state, .resolve thread address edit =>
      match state.pc thread with
      | .resolved .. => none
      | .idle =>
          match editResolve (ownRoot root) state.mem address 0 edit with
          | none => some state
          | some vm =>
              some { state with
                pc := Function.update state.pc thread (.resolved address edit vm) }
  | state, .update thread =>
      match state.pc thread with
      | .idle => none
      | .resolved address _ vm =>
          some {
            mem := pteditUpdate (ownRoot root) state.mem address 0 vm
            pc := Function.update state.pc thread .idle }

/-- All threads before their first edit. -/
def editorsStart (mem : Bytes) : Editors Thread where
  mem := mem
  pc := fun _ => .idle

/-- The thread is between the two halves of an edit of the page. -/
def Editors.Editing (state : Editors Thread) (thread : Thread) (page : ℕ) : Prop :=
  ∃ address edit vm, state.pc thread = .resolved address edit vm ∧ pageOf address = page

/-- No thread begins to edit a page that another one is editing. -/
def EditsApart (state : Editors Thread) : EditAction Thread → Prop
  | .resolve _ address _ => ∀ thread, ¬state.Editing thread (pageOf address)
  | .update _ => True

/-- The edit that a step makes. -/
def editLabel (state : Editors Thread) : EditAction Thread → Option (ℕ × Edit)
  | .resolve .. => none
  | .update thread =>
      match state.pc thread with
      | .idle => none
      | .resolved address edit _ => some (pageOf address, edit)

/-- What a step of the editors does. -/
theorem editors_cases {state after : Editors Thread} {action : EditAction Thread}
    (walked : WalkedTables state.mem root) (stepped : editors root state action = some after) :
    (∃ thread address edit, action = .resolve thread address edit ∧ state.pc thread = .idle ∧
      lastEntry state.mem root address = none ∧ after = state) ∨
    (∃ thread address edit vm entry, action = .resolve thread address edit ∧
      state.pc thread = .idle ∧ lastEntry state.mem root address = some entry ∧
      vm.valid = pteditValidMaskPte ∧ vm.pte = edit.apply entry ∧
      after = { state with pc := Function.update state.pc thread (.resolved address edit vm) }) ∨
    (∃ thread address edit vm, action = .update thread ∧
      state.pc thread = .resolved address edit vm ∧
      after = {
        mem := pteditUpdate (ownRoot root) state.mem address 0 vm
        pc := Function.update state.pc thread .idle }) := by
  cases action with
  | resolve thread address edit =>
      simp only [editors] at stepped
      cases isPc : state.pc thread with
      | resolved _ _ _ => simp [isPc] at stepped
      | idle =>
          rw [editResolve_eq walked.root_pos] at stepped
          cases isEntry : lastEntry state.mem root address with
          | none =>
              simp only [isPc, isEntry, Option.map_none, Option.some.injEq] at stepped
              exact Or.inl ⟨thread, address, edit, rfl, isPc, isEntry, stepped.symm⟩
          | some entry =>
              simp only [isPc, isEntry, Option.map_some, Option.some.injEq] at stepped
              exact Or.inr (Or.inl ⟨thread, address, edit, _, entry, rfl, isPc, isEntry, rfl, rfl,
                stepped.symm⟩)
  | update thread =>
      simp only [editors] at stepped
      cases isPc : state.pc thread with
      | idle => simp [isPc] at stepped
      | resolved address edit vm =>
          simp only [isPc, Option.some.injEq] at stepped
          exact Or.inr (Or.inr ⟨thread, address, edit, vm, rfl, isPc, stepped.symm⟩)

/-- The tables are a tree, and every prepared word is meant for a last entry. -/
structure Editors.Prepared (state : Editors Thread) (root : ℕ) : Prop where
  walked : WalkedTables state.mem root
  onlyPte : ∀ {thread address edit vm}, state.pc thread = .resolved address edit vm →
    vm.valid = pteditValidMaskPte

theorem Editors.Prepared.step {state after : Editors Thread} {action : EditAction Thread}
    (prepared : state.Prepared root) (stepped : editors root state action = some after) :
    after.Prepared root := by
  rcases editors_cases prepared.walked stepped with
    ⟨thread, address, edit, rfl, isPc, isNone, rfl⟩ |
    ⟨thread, address, edit, vm, entry, rfl, isPc, isEntry, onlyPte, pte_eq, rfl⟩ |
    ⟨thread, address, edit, vm, rfl, isPc, rfl⟩
  · exact prepared
  · refine ⟨prepared.walked, ?_⟩
    intro other address' edit' vm' isPc'
    by_cases isThread : other = thread
    · simp only [isThread, Function.update_self, EditPc.resolved.injEq] at isPc'
      rcases isPc' with ⟨rfl, rfl, rfl⟩
      exact onlyPte
    · simp only [Function.update_of_ne isThread] at isPc'
      exact prepared.onlyPte isPc'
  · refine ⟨prepared.walked.update (prepared.onlyPte isPc), ?_⟩
    intro other address' edit' vm' isPc'
    by_cases isThread : other = thread
    · simp [isThread] at isPc'
    · simp only [Function.update_of_ne isThread] at isPc'
      exact prepared.onlyPte isPc'

omit [DecidableEq Thread] in
theorem Editors.prepared_start (walked : WalkedTables mem root) :
    (editorsStart mem : Editors Thread).Prepared root :=
  ⟨walked, fun isPc => by simp [editorsStart] at isPc⟩

theorem Editors.prepared_of_run (walked : WalkedTables mem root)
    {past : History (Editors Thread) (EditAction Thread)} {final : Editors Thread}
    (run : Run (editors root) (editorsStart mem) past final) : final.Prepared root :=
  run.invariant (fun _ _ => True) (fun state => state.Prepared root)
    (Editors.prepared_start walked) (fun prepared _ stepped => prepared.step stepped)
    (fun _ _ => trivial)

/-- In every run, also with edits that race, the upper entries of all pages stay, and a page
that no update was for keeps its whole record and its translation. -/
theorem edits_keep_other_pages (walked : WalkedTables mem root)
    {past : History (Editors Thread) (EditAction Thread)} {final : Editors Thread}
    (run : Run (editors root) (editorsStart mem) past final) :
    WalkedTables final.mem root ∧
      (∀ address pte,
        (pteditResolve (ownRoot root) final.mem address 0).withPte pte =
          (pteditResolve (ownRoot root) mem address 0).withPte pte) ∧
      (∀ address, (∀ label ∈ labels editLabel past, label.1 ≠ pageOf address) →
        pteditResolve (ownRoot root) final.mem address 0 =
            pteditResolve (ownRoot root) mem address 0 ∧
          translate final.mem root address = translate mem root address) := by
  refine ⟨(Editors.prepared_of_run walked run).walked, ?_, ?_⟩
  · intro address pte
    apply And.right
    apply Run.invariant (fun _ _ => True)
      (fun state => state.Prepared root ∧
        (pteditResolve (ownRoot root) state.mem address 0).withPte pte =
          (pteditResolve (ownRoot root) mem address 0).withPte pte) _ _ run (fun _ _ => trivial)
    · exact ⟨Editors.prepared_start walked, by rw [editorsStart]⟩
    · rintro before after action ⟨prepared, same⟩ - stepped
      refine ⟨prepared.step stepped, ?_⟩
      rw [← same]
      rcases editors_cases prepared.walked stepped with
        ⟨thread, address, edit, rfl, isPc, isNone, rfl⟩ |
        ⟨thread, address, edit, vm, entry, rfl, isPc, isEntry, onlyPte, pte_eq, rfl⟩ |
        ⟨thread, address, edit, vm, rfl, isPc, rfl⟩
      · rfl
      · rfl
      · exact prepared.walked.pteditResolve_update (prepared.onlyPte isPc) _ _
  · intro address untouched
    rw [← guarded_iff_labels] at untouched
    apply And.right
    apply Run.invariant _
      (fun state => state.Prepared root ∧
        pteditResolve (ownRoot root) state.mem address 0 =
            pteditResolve (ownRoot root) mem address 0 ∧
          translate state.mem root address = translate mem root address) _ _ run untouched
    · exact ⟨Editors.prepared_start walked, by rw [editorsStart], by rw [editorsStart]⟩
    · rintro before after action ⟨prepared, sameResolve, sameTranslate⟩ otherPage stepped
      refine ⟨prepared.step stepped, ?_⟩
      rw [← sameResolve, ← sameTranslate]
      rcases editors_cases prepared.walked stepped with
        ⟨thread, address, edit, rfl, isPc, isNone, rfl⟩ |
        ⟨thread, address, edit, vm, entry, rfl, isPc, isEntry, onlyPte, pte_eq, rfl⟩ |
        ⟨thread, address', edit, vm, rfl, isPc, rfl⟩
      · exact ⟨rfl, rfl⟩
      · exact ⟨rfl, rfl⟩
      · have isOther : pageOf address' ≠ pageOf address :=
          otherPage (pageOf address', edit) (by simp [editLabel, isPc])
        exact prepared.walked.update_of_ne (prepared.onlyPte isPc) isOther.symm

/-- Two threads race for page `1`, and page `5` is left alone. -/
theorem page_kept_by_race :
    ∃ (past : _) (final : Editors Bool), Run (editors 1) (editorsStart chainMemory) past final ∧
      labels editLabel past = [(1, .clearBit 1), (1, .setBit 9)] ∧
      translate final.mem 1 0x5000 = translate chainMemory 1 0x5000 := by
  rcases Run.exists_of_perform (editors 1) (editorsStart chainMemory : Editors Bool)
      [.resolve true 0x1000 (.setBit 9), .resolve false 0x1000 (.clearBit 1), .update true,
        .update false]
      (fun past _ => labels editLabel past = [(1, .clearBit 1), (1, .setBit 9)])
      (by decide +kernel) with ⟨past, final, run, isRace⟩
  rw [decide_eq_true_iff] at isRace
  refine ⟨past, final, run, isRace, ?_⟩
  refine ((edits_keep_other_pages chain_walked run).2.2 0x5000 ?_).2
  rw [isRace]
  decide

/-- The map holds the last entries, and every thread between the two halves of an edit is the
only one on its page and has prepared the word for the entry that is still there. -/
structure Editors.Edits (root : ℕ) (state : Editors Thread) (map : PageMap) : Prop where
  prepared : state.Prepared root
  entries : ∀ address, lastEntry state.mem root address = map (pageOf address)
  fresh : ∀ {thread address edit vm}, state.pc thread = .resolved address edit vm →
    ∃ entry, map (pageOf address) = some entry ∧ vm.pte = edit.apply entry
  apart : ∀ {thread other page}, state.Editing thread page → state.Editing other page →
    thread = other

namespace Editors.Edits

variable {state after : Editors Thread} {action : EditAction Thread} {map : PageMap}

omit [DecidableEq Thread] in
theorem start (walked : WalkedTables mem root) :
    (editorsStart mem : Editors Thread).Edits root (pageMap mem root) where
  prepared := Editors.prepared_start walked
  entries _ := lastEntry_eq_pageMap
  fresh isPc := by simp [editorsStart] at isPc
  apart := by
    rintro thread other page ⟨_, _, _, isPc, _⟩
    simp [editorsStart] at isPc

theorem resolve (edits : state.Edits root map) {thread : Thread} {edit : Edit} {vm : PteditEntry}
    {entry : Entry} (apart : EditsApart state (.resolve thread address edit))
    (isEntry : lastEntry state.mem root address = some entry)
    (pte_eq : vm.pte = edit.apply entry)
    (prepared : Editors.Prepared
      { state with pc := Function.update state.pc thread (.resolved address edit vm) } root) :
    Editors.Edits root
      { state with pc := Function.update state.pc thread (.resolved address edit vm) } map := by
  -- A thread that is on a page afterwards is the one that came, or was on it before.
  have editing : ∀ {other page}, Editors.Editing
      { state with pc := Function.update state.pc thread (.resolved address edit vm) } other page →
        (other = thread ∧ page = pageOf address) ∨ state.Editing other page := by
    rintro other page ⟨address', edit', vm', isPc', isPage⟩
    by_cases isThread : other = thread
    · simp only [isThread, Function.update_self, EditPc.resolved.injEq] at isPc'
      exact Or.inl ⟨isThread, by rw [← isPage, isPc'.1]⟩
    · simp only [Function.update_of_ne isThread] at isPc'
      exact Or.inr ⟨address', edit', vm', isPc', isPage⟩
  refine ⟨prepared, edits.entries, ?_, ?_⟩
  · intro other address' edit' vm' isPc'
    by_cases isThread : other = thread
    · simp only [isThread, Function.update_self, EditPc.resolved.injEq] at isPc'
      rcases isPc' with ⟨rfl, rfl, rfl⟩
      exact ⟨entry, by rw [← edits.entries, isEntry], pte_eq⟩
    · simp only [Function.update_of_ne isThread] at isPc'
      exact edits.fresh isPc'
  · intro first second page firstEditing secondEditing
    rcases editing firstEditing with ⟨rfl, rfl⟩ | firstBefore
    · rcases editing secondEditing with ⟨rfl, _⟩ | secondBefore
      · rfl
      · exact absurd secondBefore (apart second)
    · rcases editing secondEditing with ⟨rfl, rfl⟩ | secondBefore
      · exact absurd firstBefore (apart first)
      · exact edits.apart firstBefore secondBefore

theorem update (edits : state.Edits root map) {thread : Thread} {edit : Edit} {vm : PteditEntry}
    (isPc : state.pc thread = .resolved address edit vm)
    (prepared : Editors.Prepared
      { mem := pteditUpdate (ownRoot root) state.mem address 0 vm,
        pc := Function.update state.pc thread .idle } root) :
    ∃ map', PageMap.step map (pageOf address, edit) = some map' ∧
      Editors.Edits root
        { mem := pteditUpdate (ownRoot root) state.mem address 0 vm,
          pc := Function.update state.pc thread .idle } map' := by
  rcases edits.fresh isPc with ⟨entry, isEntry, pte_eq⟩
  refine ⟨Function.update map (pageOf address) (some (edit.apply entry)), ?_, prepared, ?_, ?_, ?_⟩
  · simp [PageMap.step, isEntry]
  · intro other
    rw [edits.prepared.walked.lastEntry_update (edits.prepared.onlyPte isPc), edits.entries]
    split_ifs with samePage
    · rw [samePage, isEntry, Function.update_self, Option.map_some, pte_eq]
    · rw [Function.update_of_ne samePage]
  · intro other address' edit' vm' isPc'
    by_cases isThread : other = thread
    · simp [isThread] at isPc'
    · simp only [Function.update_of_ne isThread] at isPc'
      have otherPage : pageOf address' ≠ pageOf address := by
        intro samePage
        exact isThread (edits.apart ⟨_, _, _, isPc', samePage⟩ ⟨_, _, _, isPc, rfl⟩)
      rw [Function.update_of_ne otherPage]
      exact edits.fresh isPc'
  · have editing : ∀ {other page}, Editors.Editing
        { mem := pteditUpdate (ownRoot root) state.mem address 0 vm,
          pc := Function.update state.pc thread .idle } other page → state.Editing other page := by
      rintro other page ⟨address', edit', vm', isPc', isPage⟩
      by_cases isThread : other = thread
      · simp [isThread] at isPc'
      · simp only [Function.update_of_ne isThread] at isPc'
        exact ⟨address', edit', vm', isPc', isPage⟩
    intro first second page firstEditing secondEditing
    exact edits.apart (editing firstEditing) (editing secondEditing)

theorem answers (edits : state.Edits root map) (apart : EditsApart state action)
    (stepped : editors root state action = some after) :
    Answers PageMap.step (fun map' => after.Edits root map') map (editLabel state action) := by
  have prepared := edits.prepared.step stepped
  rcases editors_cases edits.prepared.walked stepped with
    ⟨thread, address, edit, rfl, isPc, isNone, rfl⟩ |
    ⟨thread, address, edit, vm, entry, rfl, isPc, isEntry, onlyPte, pte_eq, rfl⟩ |
    ⟨thread, address, edit, vm, rfl, isPc, rfl⟩
  · exact edits
  · exact edits.resolve apart isEntry pte_eq prepared
  · simp only [editLabel, isPc]
    exact edits.update isPc prepared

end Editors.Edits

/-- Threads that do not edit one page at the same time edit the map of the last entries
atomically, each edit at the moment of its update, and the functions that read an entry
read this map. -/
theorem edits_are_atomic (walked : WalkedTables mem root)
    {past : History (Editors Thread) (EditAction Thread)} {final : Editors Thread}
    (run : Run (editors root) (editorsStart mem) past final) (apart : Guarded EditsApart past) :
    ∃ trace map, Run PageMap.step (pageMap mem root) trace map ∧
      trace.map Prod.snd = labels editLabel past ∧
      (∀ address, lastEntry final.mem root address = map (pageOf address)) ∧
      (∀ address bit, pteditPteGetBit (ownRoot root) final.mem address 0 bit =
        (map (pageOf address)).any (fun entry => entry.getLsbD bit)) ∧
      (∀ address, pteditPteGetPfn (ownRoot root) final.mem address 0 =
        ((map (pageOf address)).map pteditGetPfn).getD 0) := by
  rcases run.simulation PageMap.step EditsApart editLabel (Editors.Edits root)
      (Editors.Edits.start walked) (fun edits allowed stepped => edits.answers allowed stepped)
      apart with ⟨trace, map, mapRun, trace_eq, edits⟩
  refine ⟨trace, map, mapRun, trace_eq, edits.entries, ?_, ?_⟩
  · intro address bit
    rw [pteditPteGetBit_eq walked.root_pos, edits.entries]
  · intro address
    rw [pteditPteGetPfn_eq_lastEntry walked.root_pos, edits.entries]

theorem editors_resolve {state : Editors Thread} {thread : Thread} {edit : Edit}
    {vm : PteditEntry} (isPc : state.pc thread = .idle)
    (resolved : editResolve (ownRoot root) state.mem address 0 edit = some vm) :
    editors root state (.resolve thread address edit) =
      some { state with pc := Function.update state.pc thread (.resolved address edit vm) } := by
  simp only [editors, isPc, resolved]

theorem editors_update {state : Editors Thread} {thread : Thread} {edit : Edit}
    {vm : PteditEntry} (isPc : state.pc thread = .resolved address edit vm) :
    editors root state (.update thread) =
      some {
        mem := pteditUpdate (ownRoot root) state.mem address 0 vm
        pc := Function.update state.pc thread .idle } := by
  simp only [editors, isPc]

/-- A call of an editing function that nobody interrupts is its two halves in a row. -/
theorem editors_alone (state : Editors Thread) {thread : Thread} (isPc : state.pc thread = .idle)
    (address : ℕ) (edit : Edit) :
    ∃ past, Run (editors root) state past
      { state with mem := editPte (ownRoot root) state.mem address 0 edit } := by
  have started : Run (editors root) state [] state := .start
  unfold editPte
  cases resolved : editResolve (ownRoot root) state.mem address 0 edit with
  | none =>
      refine ⟨_, started.extend (.resolve thread address edit) ?_⟩
      simp only [editors, isPc, resolved]
  | some vm =>
      have restored : Function.update (Function.update state.pc thread
          (.resolved address edit vm)) thread .idle = state.pc := by
        rw [Function.update_idem, ← isPc, Function.update_eq_self]
      have run := started.extend (.resolve thread address edit) (editors_resolve isPc resolved)
        |>.extend (.update thread) (editors_update (Function.update_self ..))
      rw [restored] at run
      exact ⟨_, run⟩

/-- Two threads whose edits of the pages `1` and `2` overlap. -/
theorem edits_atomic_on_chain :
    ∃ (past : _) (final : Editors Bool) (trace : _) (map : PageMap),
      Run (editors 1) (editorsStart chainMemory) past final ∧ Guarded EditsApart past ∧
      Run PageMap.step (pageMap chainMemory 1) trace map ∧
      trace.map Prod.snd = [(2, .clearBit 1), (1, .setBit 9)] ∧
      lastEntry final.mem 1 0x1000 = map 1 := by
  have first : (editResolve (ownRoot 1) chainMemory 0x1000 0 (.setBit 9)).isSome := by
    decide +kernel
  have second : (editResolve (ownRoot 1) chainMemory 0x2000 0 (.clearBit 1)).isSome := by
    decide +kernel
  rw [Option.isSome_iff_exists] at first second
  rcases first with ⟨firstVm, first_eq⟩
  rcases second with ⟨secondVm, second_eq⟩
  have started : Run (editors 1) (editorsStart chainMemory : Editors Bool) []
      (editorsStart chainMemory) := .start
  have run := started.extend (.resolve true 0x1000 (.setBit 9)) (editors_resolve rfl first_eq)
    |>.extend (.resolve false 0x2000 (.clearBit 1)) (editors_resolve rfl second_eq)
    |>.extend (.update true) (editors_update rfl)
    |>.extend (.update false) (editors_update rfl)
  have apartFirst : EditsApart (editorsStart chainMemory : Editors Bool)
      (.resolve true 0x1000 (.setBit 9)) := by
    rintro thread ⟨_, _, _, isPc, _⟩
    simp [editorsStart] at isPc
  have apartSecond : EditsApart
      { mem := chainMemory
        pc := Function.update (editorsStart chainMemory : Editors Bool).pc true
          (.resolved 0x1000 (.setBit 9) firstVm) }
      (.resolve false 0x2000 (.clearBit 1)) := by
    rintro thread ⟨address, edit, vm, isPc, samePage⟩
    cases thread with
    | false => simp [editorsStart] at isPc
    | true =>
        simp only [Function.update_self, EditPc.resolved.injEq] at isPc
        rw [← isPc.1] at samePage
        exact absurd samePage (by decide)
  have apart := Guarded.nil.cons apartFirst |>.cons apartSecond
  rcases edits_are_atomic chain_walked run (Guarded.cons trivial (Guarded.cons trivial apart)) with
    ⟨trace, map, mapRun, trace_eq, entries, _, _⟩
  exact ⟨_, _, trace, map, run, Guarded.cons trivial (Guarded.cons trivial apart), mapRun, trace_eq,
    entries 0x1000⟩

end UserLevelMmap.PageTable
