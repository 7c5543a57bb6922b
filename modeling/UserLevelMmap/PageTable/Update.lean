import UserLevelMmap.PageTable.Editor

/-!
# Updates of all levels

`ptedit_update_user_ext` writes the entries of those levels that both the given record and
the walk that it makes itself have. An update with the record that `ptedit_resolve` has
returned changes nothing, whatever the paging definition. On x86-64 an update that keeps the
links between the tables is read back by the next `ptedit_resolve`, and the last entries of
all other pages stay, although the upper entries are shared with them.
-/

namespace UserLevelMmap.PageTable

open RadixTree

/-! ## Records -/

namespace PteditEntry

/-- Both records have an entry of the level. -/
def both (vm current : PteditEntry) (mask : BitVec 64) : Bool :=
  vm.valid &&& mask ≠ 0 && current.valid &&& mask ≠ 0

/-- The record after an update: the entries of `vm` where both records have one. There is no
fourth level on x86-64, and its entry is that of the fifth. -/
def merge (vm current : PteditEntry) : PteditEntry :=
  let pgd := if vm.both current pteditValidMaskPgd then vm.pgd else current.pgd
  { current with
    pgd := pgd
    p4d := pgd
    pud := if vm.both current pteditValidMaskPud then vm.pud else current.pud
    pmd := if vm.both current pteditValidMaskPmd then vm.pmd else current.pmd
    pte := if vm.both current pteditValidMaskPte then vm.pte else current.pte }

/-- The update leaves it to every upper entry to which table it points. -/
structure KeepsLinks (vm current : PteditEntry) : Prop where
  pgd : (vm.merge current).pgd.SameLink current.pgd
  pud : (vm.merge current).pud.SameLink current.pud
  pmd : (vm.merge current).pmd.SameLink current.pmd

/-- The entry of a level, counted from the root. -/
def entryAt (vm : PteditEntry) : ℕ → Entry
  | 0 => vm.pgd
  | 1 => vm.pud
  | 2 => vm.pmd
  | _ => vm.pte

/-- The bit for a level in `valid`. -/
def maskAt : ℕ → BitVec 64
  | 0 => pteditValidMaskPgd
  | 1 => pteditValidMaskPud
  | 2 => pteditValidMaskPmd
  | _ => pteditValidMaskPte

end PteditEntry

/-! ## Updates without a change -/

section Resolved

variable {paging : PagingDefinition} {pagingRoot : ℕ → ℕ} {deref : ℕ → BitVec 64}
  {address pid : ℕ}

/-- A record is filled from the places to which an update would write. -/
theorem pteditResolveUserExt_places (paging : PagingDefinition) (pagingRoot : ℕ → ℕ)
    (deref : ℕ → BitVec 64) (address pid : ℕ) :
    let current := pteditResolveUserExt paging pagingRoot deref address pid
    (current.valid &&& pteditValidMaskPte ≠ 0 →
      current.pte = deref (entryAddress current.pmd.pfn (paging.pti address))) ∧
    (current.valid &&& pteditValidMaskPmd ≠ 0 →
      current.pmd = deref (entryAddress current.pud.pfn (paging.pmdi address))) ∧
    (current.valid &&& pteditValidMaskPud ≠ 0 →
      current.pud = deref (entryAddress current.p4d.pfn (paging.pudi address))) ∧
    (current.valid &&& pteditValidMaskP4d ≠ 0 →
      current.p4d = deref (entryAddress current.pgd.pfn (paging.p4di address))) ∧
    (current.valid &&& pteditValidMaskPgd ≠ 0 →
      current.pgd = deref (pagingRoot pid / 2 * 2 + paging.pgdi address * pteditEntrySize)) := by
  unfold pteditResolveUserExt
  dsimp only
  cases paging.hasP4d <;> cases paging.hasPud <;> cases paging.hasPmd <;>
    simp only [if_true, if_false, Bool.false_eq_true] <;> split_ifs <;>
    refine ⟨?_, ?_, ?_, ?_, ?_⟩
  -- The walk has either read the entry at its place or left the bit of the level clear.
  all_goals
    dsimp only
    intro isValid
    first
    | exact (isValid (by decide)).elim
    | rfl

theorem writeWord_if_same (mem : Bytes) {place : ℕ} {word : BitVec 64} {written : Bool}
    (same : written = true → word = mem.readWord place) :
    (if written then mem.writeWord place word else mem) = mem := by
  cases written with
  | false => rfl
  | true => rw [if_pos rfl, same rfl, Bytes.writeWord_readWord]

/-- The record with another mask of levels. -/
def PteditEntry.withValid (vm : PteditEntry) (valid : BitVec 64) : PteditEntry :=
  { vm with valid := valid }

/-- An update with the record that was just resolved changes nothing, whatever the paging
definition and the levels that it asks for. -/
theorem update_of_resolved (paging : PagingDefinition) (pagingRoot : ℕ → ℕ) (mem : Bytes)
    (address pid : ℕ) (valid : BitVec 64) :
    pteditUpdateUserExt paging pagingRoot mem address pid
        ((pteditResolveUserExt paging pagingRoot mem.readWord address pid).withValid valid) =
      mem := by
  rcases pteditResolveUserExt_places paging pagingRoot mem.readWord address pid with
    ⟨pte_eq, pmd_eq, pud_eq, p4d_eq, pgd_eq⟩
  unfold pteditUpdateUserExt PteditEntry.withValid
  generalize pteditResolveUserExt paging pagingRoot mem.readWord address pid = current at *
  dsimp only
  by_cases noRoot : pagingRoot pid / 2 * 2 = 0
  · rw [if_pos noRoot]
  · rw [if_neg noRoot]
    rw [writeWord_if_same mem, writeWord_if_same mem, writeWord_if_same mem,
      writeWord_if_same mem, writeWord_if_same mem]
    all_goals
      simp only [Bool.and_eq_true, decide_eq_true_eq]
      intro written
    · exact pgd_eq written.1.2
    · exact p4d_eq written.1.2
    · exact pud_eq written.1.2
    · exact pmd_eq written.1.2
    · exact pte_eq written.2

end Resolved

/-! ## Updates on x86-64 -/

variable {mem mem' : Bytes} {root address other : ℕ} {vm : PteditEntry}

/-- A write to one entry, if it is wanted. -/
def writeEntry (mem : Bytes) (written : Bool) (table : ℕ) (index : Fin 512) (word : BitVec 64) :
    Bytes :=
  if written then mem.writeWord (entryAddress table index) word else mem

theorem slots_writeEntry {written : Bool} {table frame : ℕ} {place index : Fin 512}
    {word : BitVec 64} :
    slots (writeEntry mem written table place word) frame index =
      if written ∧ frame = table ∧ index = place then word else slots mem frame index := by
  unfold writeEntry
  cases written with
  | false => simp
  | true =>
      simp only [if_true, true_and]
      split_ifs with same
      · rw [same.1, same.2, slots_writeWord_self]
      · rw [not_and_or] at same
        exact slots_writeWord_of_ne same

/-- In a tree a written entry is told by its path. -/
theorem slots_writeEntry_at {before : Bytes} {written : Bool} {table frame : ℕ}
    {place index : Fin 512} {word : BitVec 64} {above target : List (Fin 512)}
    (tree : IsTree (slots before) pteditChild root 4)
    (found : tableAt (slots before) pteditChild 0 root above = some frame)
    (foundTarget : written = true →
      tableAt (slots before) pteditChild 0 root target = some table)
    (short : above.length < 4) (shortTarget : target.length < 4) :
    slots (writeEntry mem written table place word) frame index =
      if written ∧ above ++ [index] = target ++ [place] then word else slots mem frame index := by
  rw [slots_writeEntry]
  apply if_congr _ rfl rfl
  constructor
  · rintro ⟨isWritten, rfl, rfl⟩
    have same := tree _ _ _ short shortTarget found (foundTarget isWritten)
    exact ⟨isWritten, by rw [same]⟩
  · rintro ⟨isWritten, same⟩
    rcases List.append_inj' same rfl with ⟨rfl, isPlace⟩
    rw [List.cons.injEq] at isPlace
    have sameTable := found.symm.trans (foundTarget isWritten)
    rw [Option.some.injEq] at sameTable
    exact ⟨isWritten, sameTable, isPlace.1⟩

theorem pteditResolve_p4d (root_pos : 0 < root) :
    (pteditResolve (ownRoot root) mem address 0).p4d =
      (pteditResolve (ownRoot root) mem address 0).pgd := by
  rw [pteditResolve_eq root_pos]
  dsimp only
  split_ifs <;> rfl

theorem pteditUpdate_writes (root_pos : 0 < root) :
    pteditUpdate (ownRoot root) mem address 0 vm =
      let current := pteditResolve (ownRoot root) mem address 0
      let mem := writeEntry mem (vm.both current pteditValidMaskPte) current.pmd.pfn
        (leafIndex address) vm.pte
      let mem := writeEntry mem (vm.both current pteditValidMaskPmd) current.pud.pfn
        (Fin.ofNat 512 (address / 2 ^ 21)) vm.pmd
      let mem := writeEntry mem (vm.both current pteditValidMaskPud) current.pgd.pfn
        (Fin.ofNat 512 (address / 2 ^ 30)) vm.pud
      writeEntry mem (vm.both current pteditValidMaskPgd) root
        (Fin.ofNat 512 (address / 2 ^ 39)) vm.pgd := by
  have even : ownRoot root 0 / 2 * 2 = root * pteditPfnMultiply := by
    simp only [ownRoot, pteditPfnMultiply]
    omega
  have root_ne : root * pteditPfnMultiply ≠ 0 := by
    simp only [pteditPfnMultiply]
    omega
  have hasPgd : x86.hasPgd = true := rfl
  unfold pteditUpdate pteditUpdateUserExt
  rw [← pteditResolve]
  simp only [even, if_neg root_ne, pteditResolve_p4d root_pos, x86_pgdi, x86_pudi, x86_pmdi,
    x86_pti, x86_hasP4d, x86_hasPud, x86_hasPmd, hasPgd, Bool.and_false, Bool.and_true,
    Bool.false_eq_true, if_false]
  generalize pteditResolve (ownRoot root) mem address 0 = current
  rfl

/-- The tables of the places to which an update writes. -/
theorem pteditResolve_tables (mem : Bytes) (address : ℕ) (root_pos : 0 < root) :
    let current := pteditResolve (ownRoot root) mem address 0
    (current.valid &&& pteditValidMaskPud ≠ 0 →
      tableAt (slots mem) pteditChild 0 root [Fin.ofNat 512 (address / 2 ^ 39)] =
        some current.pgd.pfn) ∧
    (current.valid &&& pteditValidMaskPmd ≠ 0 →
      tableAt (slots mem) pteditChild 0 root
        [Fin.ofNat 512 (address / 2 ^ 39), Fin.ofNat 512 (address / 2 ^ 30)] =
          some current.pud.pfn) ∧
    (current.valid &&& pteditValidMaskPte ≠ 0 →
      tableAt (slots mem) pteditChild 0 root (directory address) = some current.pmd.pfn) := by
  rw [pteditResolve_eq root_pos]
  dsimp only
  generalize pgd_def : (slots mem root (Fin.ofNat 512 (address / 2 ^ 39)) : Entry) = pgd
  by_cases pgdPresent : pgd.present = false
  · rw [if_pos pgdPresent]
    simp only [resolvedEntry]
    exact ⟨fun isValid => (isValid (by decide)).elim, fun isValid => (isValid (by decide)).elim,
      fun isValid => (isValid (by decide)).elim⟩
  · rw [if_neg pgdPresent]
    rw [Bool.not_eq_false] at pgdPresent
    have pgdTable := pteditTableAt_pgd pgd_def pgdPresent
    generalize pud_def : (slots mem pgd.pfn (Fin.ofNat 512 (address / 2 ^ 30)) : Entry) = pud
    by_cases pudPresent : pud.present = false
    · rw [if_pos pudPresent]
      simp only [resolvedEntry]
      exact ⟨fun _ => pgdTable, fun isValid => (isValid (by decide)).elim,
        fun isValid => (isValid (by decide)).elim⟩
    · rw [if_neg pudPresent]
      rw [Bool.not_eq_false] at pudPresent
      have pudTable := pteditTableAt_pud pgd_def pgdPresent pud_def pudPresent
      generalize pmd_def : (slots mem pud.pfn (Fin.ofNat 512 (address / 2 ^ 21)) : Entry) = pmd
      split_ifs with pmdPresent pmdSize
      all_goals simp only [resolvedEntry]
      · exact ⟨fun _ => pgdTable, fun _ => pudTable, fun isValid => (isValid (by decide)).elim⟩
      · refine ⟨fun _ => pgdTable, fun _ => pudTable, fun _ => ?_⟩
        rw [← pteditTable, pteditTable_eq]
        simp only [pgd_def, pud_def, pmd_def, pgdPresent, pudPresent, if_neg pmdPresent,
          if_pos pmdSize, Bool.true_eq_false, if_false]
      · exact ⟨fun _ => pgdTable, fun _ => pudTable, fun isValid => (isValid (by decide)).elim⟩

/-- The entries that an update of all levels leaves in the tables. -/
theorem WalkedTables.slots_update (walked : WalkedTables mem root) {above : List (Fin 512)}
    {frame : ℕ} (found : tableAt (slots mem) pteditChild 0 root above = some frame)
    (short : above.length < 4) (index : Fin 512) :
    slots (pteditUpdate (ownRoot root) mem address 0 vm) frame index =
      if vm.both (pteditResolve (ownRoot root) mem address 0) (PteditEntry.maskAt above.length) ∧
          above ++ [index] <+: path address
      then vm.entryAt above.length
      else slots mem frame index := by
  rw [pteditUpdate_writes walked.root_pos]
  rcases pteditResolve_tables mem address walked.root_pos with
    ⟨pudTable, pmdTable, pteTable⟩
  generalize pteditResolve (ownRoot root) mem address 0 = current at *
  have isValid : ∀ {mask}, vm.both current mask = true → current.valid &&& mask ≠ 0 := by
    intro mask isBoth
    simp only [PteditEntry.both, Bool.and_eq_true, decide_eq_true_eq] at isBoth
    exact isBoth.2
  have rootTable : tableAt (slots mem) pteditChild 0 root [] = some root := rfl
  dsimp only
  rw [slots_writeEntry_at walked.pteditTree found (fun _ => rootTable) short (by simp)]
  rw [slots_writeEntry_at walked.pteditTree found (fun both => pudTable (isValid both)) short
    (by simp)]
  rw [slots_writeEntry_at walked.pteditTree found (fun both => pmdTable (isValid both)) short
    (by simp)]
  rw [slots_writeEntry_at walked.pteditTree found (fun both => pteTable (isValid both)) short
    (by simp [directory])]
  rcases above with _ | ⟨first, _ | ⟨second, _ | ⟨third, _ | ⟨fourth, rest⟩⟩⟩⟩
  · simp [path, directory, PteditEntry.maskAt, PteditEntry.entryAt]
  · simp [path, directory, PteditEntry.maskAt, PteditEntry.entryAt]
  · simp [path, directory, PteditEntry.maskAt, PteditEntry.entryAt]
  · simp [path, directory, PteditEntry.maskAt, PteditEntry.entryAt]
  · simp only [List.length_cons] at short
    omega

/-- The entries of a record are those along the path of the address. -/
theorem pteditResolve_entryAt (root_pos : 0 < root) {above : List (Fin 512)} {index : Fin 512}
    {frame : ℕ} (found : tableAt (slots mem) pteditChild 0 root above = some frame)
    (isPrefix : above ++ [index] <+: path address)
    (isValid : (pteditResolve (ownRoot root) mem address 0).valid &&&
      PteditEntry.maskAt above.length ≠ 0) :
    (pteditResolve (ownRoot root) mem address 0).entryAt above.length = slots mem frame index := by
  have even : ownRoot root 0 / 2 * 2 = root * pteditPfnMultiply := by
    simp only [ownRoot, pteditPfnMultiply]
    omega
  rcases pteditResolve_tables mem address root_pos with ⟨pudTable, pmdTable, pteTable⟩
  have noP4d : (pteditResolve (ownRoot root) mem address 0).p4d =
      (pteditResolve (ownRoot root) mem address 0).pgd := pteditResolve_p4d root_pos
  rcases pteditResolveUserExt_places x86 (ownRoot root) mem.readWord address 0 with
    ⟨pte_eq, pmd_eq, pud_eq, -, pgd_eq⟩
  rw [← pteditResolve] at pte_eq pmd_eq pud_eq pgd_eq
  rw [even, x86_pgdi, readWord_root] at pgd_eq
  rw [noP4d, x86_pudi, readWord_slot] at pud_eq
  rw [x86_pmdi, readWord_slot] at pmd_eq
  rw [x86_pti, readWord_slot] at pte_eq
  generalize pteditResolve (ownRoot root) mem address 0 = current at *
  rcases above with _ | ⟨first, _ | ⟨second, _ | ⟨third, _ | ⟨fourth, rest⟩⟩⟩⟩
  · simp only [path, directory, List.nil_append, List.cons_append,
      List.cons_prefix_cons] at isPrefix
    rw [tableAt, Option.some.injEq] at found
    rw [← found, isPrefix.1]
    exact pgd_eq isValid
  · simp only [path, directory, List.nil_append, List.cons_append,
      List.cons_prefix_cons] at isPrefix
    rw [isPrefix.1, pudTable isValid, Option.some.injEq] at found
    rw [← found, isPrefix.2.1]
    exact pud_eq isValid
  · simp only [path, directory, List.nil_append, List.cons_append,
      List.cons_prefix_cons] at isPrefix
    rw [isPrefix.1, isPrefix.2.1, pmdTable isValid, Option.some.injEq] at found
    rw [← found, isPrefix.2.2.1]
    exact pmd_eq isValid
  · simp only [path, directory, List.nil_append, List.cons_append,
      List.cons_prefix_cons] at isPrefix
    have isDirectory : [first, second, third] = directory address := by
      rw [isPrefix.1, isPrefix.2.1, isPrefix.2.2.1, directory]
    rw [isDirectory, pteTable isValid, Option.some.injEq] at found
    rw [← found, isPrefix.2.2.2.1]
    exact pte_eq isValid
  · have short := length_lt_of_onPath isPrefix
    simp only [List.length_cons] at short
    omega

theorem PteditEntry.entryAt_merge (vm current : PteditEntry) (level : ℕ) :
    (vm.merge current).entryAt level =
      if vm.both current (maskAt level) then vm.entryAt level else current.entryAt level := by
  rcases level with _ | _ | _ | level <;> rfl

theorem PteditEntry.KeepsLinks.at {current : PteditEntry} (links : vm.KeepsLinks current)
    {level : ℕ} (isUpper : level < 3) :
    ((vm.merge current).entryAt level).SameLink (current.entryAt level) := by
  have cases : level = 0 ∨ level = 1 ∨ level = 2 := by omega
  rcases cases with rfl | rfl | rfl
  · exact links.pgd
  · exact links.pud
  · exact links.pmd

theorem walkChild_of_sameLink {level : ℕ} {entry other : Entry} (same : entry.SameLink other) :
    walkChild level entry = walkChild level other := by
  simp only [walkChild, same.1, same.2.1, same.2.2]

namespace WalkedTables

/-- An update that keeps the links keeps those of every table. -/
theorem sameLink_update (walked : WalkedTables mem root)
    (links : vm.KeepsLinks (pteditResolve (ownRoot root) mem address 0))
    {above : List (Fin 512)} {frame : ℕ}
    (found : tableAt (slots mem) pteditChild 0 root above = some frame)
    (short : above.length < 3) (index : Fin 512) :
    (slots (pteditUpdate (ownRoot root) mem address 0 vm) frame index).SameLink
      (slots mem frame index) := by
  rw [walked.slots_update found (by omega)]
  split_ifs with isWritten
  · rcases isWritten with ⟨isBoth, isPrefix⟩
    have isValid : (pteditResolve (ownRoot root) mem address 0).valid &&&
        PteditEntry.maskAt above.length ≠ 0 := by
      simp only [PteditEntry.both, Bool.and_eq_true, decide_eq_true_eq] at isBoth
      exact isBoth.2
    have kept := links.at short
    rw [PteditEntry.entryAt_merge, if_pos isBoth,
      pteditResolve_entryAt walked.root_pos found isPrefix isValid] at kept
    exact kept
  · exact ⟨rfl, rfl, rfl⟩

theorem tableAt_update (walked : WalkedTables mem root)
    (links : vm.KeepsLinks (pteditResolve (ownRoot root) mem address 0))
    {path : List (Fin 512)} (short : path.length < 4) :
    tableAt (slots (pteditUpdate (ownRoot root) mem address 0 vm)) walkChild 0 root path =
      tableAt (slots mem) walkChild 0 root path := by
  have isShort : path.length ≤ 3 := by omega
  refine tableAt_of_children ?_ isShort
  intro above frame isAbove found index
  rw [← walked.pteditTableAt (by omega)] at found
  exact walkChild_of_sameLink (walked.sameLink_update links found isAbove index)

theorem updateAll (walked : WalkedTables mem root)
    (links : vm.KeepsLinks (pteditResolve (ownRoot root) mem address 0)) :
    WalkedTables (pteditUpdate (ownRoot root) mem address 0 vm) root where
  tree := walked.tree.congr (walked.tableAt_update links)
  root_pos := walked.root_pos
  window := by
    rintro frame ⟨path, short, found⟩
    rw [walked.tableAt_update links short] at found
    exact walked.window ⟨path, short, found⟩

theorem pteditTableAt_update (walked : WalkedTables mem root)
    (links : vm.KeepsLinks (pteditResolve (ownRoot root) mem address 0))
    {path : List (Fin 512)} (short : path.length < 4) :
    tableAt (slots (pteditUpdate (ownRoot root) mem address 0 vm)) pteditChild 0 root path =
      tableAt (slots mem) pteditChild 0 root path := by
  rw [(walked.updateAll links).pteditTableAt short, walked.pteditTableAt short,
    walked.tableAt_update links short]

theorem lastEntry_updateAll_of_ne (walked : WalkedTables mem root)
    (links : vm.KeepsLinks (pteditResolve (ownRoot root) mem address 0))
    (otherPage : pageOf other ≠ pageOf address) :
    lastEntry (pteditUpdate (ownRoot root) mem address 0 vm) root other =
      lastEntry mem root other := by
  have short : (directory other).length < 4 := by simp [directory]
  unfold lastEntry pteditTable
  rw [walked.pteditTableAt_update links short]
  cases found : tableAt (slots mem) pteditChild 0 root (directory other) with
  | none => rw [Option.map_none, Option.map_none]
  | some table =>
      rw [Option.map_some, Option.map_some, walked.slots_update found short, if_neg]
      rintro ⟨-, isPrefix⟩
      exact otherPage (path_eq_iff.mp (isPrefix.eq_of_length rfl))

theorem translate_updateAll_of_ne (walked : WalkedTables mem root)
    (links : vm.KeepsLinks (pteditResolve (ownRoot root) mem address 0))
    (otherPage : pageOf other ≠ pageOf address) :
    translate (pteditUpdate (ownRoot root) mem address 0 vm) root other =
      translate mem root other := by
  apply translate_of_sameLinks
  intro above index table isPrefix found
  have short := length_lt_of_onPath isPrefix
  have foundWalk := walkTable_of_hardwareTable found
  rw [← walked.pteditTableAt short] at foundWalk
  by_cases isUpper : above.length < 3
  · exact walked.sameLink_update links foundWalk isUpper index
  · rw [walked.slots_update foundWalk (by omega), if_neg]
    · exact ⟨rfl, rfl, rfl⟩
    · rintro ⟨-, isWritten⟩
      have sameLength : (above ++ [index]).length = 4 := by
        rw [List.length_append, List.length_singleton]
        omega
      have isOther := isPrefix.eq_of_length sameLength
      have isAddress := isWritten.eq_of_length sameLength
      exact otherPage (path_eq_iff.mp (isOther.symm.trans isAddress))

theorem slots_update_path (walked : WalkedTables mem root) {above : List (Fin 512)}
    {index : Fin 512} {frame : ℕ}
    (found : tableAt (slots mem) pteditChild 0 root above = some frame)
    (isPrefix : above ++ [index] <+: path address) :
    slots (pteditUpdate (ownRoot root) mem address 0 vm) frame index =
      if vm.both (pteditResolve (ownRoot root) mem address 0) (PteditEntry.maskAt above.length)
      then vm.entryAt above.length
      else slots mem frame index := by
  rw [walked.slots_update found (length_lt_of_onPath isPrefix)]
  simp only [isPrefix, and_true]

end WalkedTables

/-- The record of a walk that meets the given entries. -/
def walkRecord (address : ℕ) (pgd pud pmd pte : Entry) : PteditEntry :=
  if pgd.present = false then resolvedEntry address 0 0 0 0 0 0
  else if pud.present = false then resolvedEntry address pgd pgd pud 0 0 5
  else if pmd.present = false then resolvedEntry address pgd pgd pud pmd 0 13
  else if pmd.size = false then resolvedEntry address pgd pgd pud pmd pte 29
  else resolvedEntry address pgd pgd pud pmd 0 13

theorem PteditEntry.both_of_valid {current : PteditEntry} {mask valid : BitVec 64}
    (valid_eq : current.valid = valid) (isClear : valid &&& mask = 0) :
    vm.both current mask = false := by
  simp [both, valid_eq, isClear]

/-- Entries that an update has replaced give the merged record. -/
theorem walkRecord_merge {pgd pud pmd pte pgd' pud' pmd' pte' : Entry} {current : PteditEntry}
    (current_eq : walkRecord address pgd pud pmd pte = current)
    (pgd_eq : pgd' = if vm.both current pteditValidMaskPgd then vm.pgd else pgd)
    (pgdSame : pgd'.SameLink pgd)
    (pud_eq : pgd.present = true →
      pud' = if vm.both current pteditValidMaskPud then vm.pud else pud)
    (pudSame : pgd.present = true → pud'.SameLink pud)
    (pmd_eq : pgd.present = true → pud.present = true →
      pmd' = if vm.both current pteditValidMaskPmd then vm.pmd else pmd)
    (pmdSame : pgd.present = true → pud.present = true → pmd'.SameLink pmd)
    (pte_eq : pgd.present = true → pud.present = true → pmd.present = true → pmd.size = false →
      pte' = if vm.both current pteditValidMaskPte then vm.pte else pte) :
    walkRecord address pgd' pud' pmd' pte' = vm.merge current := by
  unfold walkRecord at current_eq ⊢
  rw [pgdSame.1]
  by_cases pgdPresent : pgd.present = false
  · rw [if_pos pgdPresent] at current_eq ⊢
    subst current_eq
    simp [PteditEntry.merge, PteditEntry.both, resolvedEntry]
  · rw [if_neg pgdPresent] at current_eq ⊢
    rw [Bool.not_eq_false] at pgdPresent
    rw [(pudSame pgdPresent).1]
    by_cases pudPresent : pud.present = false
    · rw [if_pos pudPresent] at current_eq ⊢
      have valid_eq : current.valid = 5 := by rw [← current_eq, resolvedEntry]
      have noPmd : vm.both current pteditValidMaskPmd = false :=
        PteditEntry.both_of_valid valid_eq (by decide)
      have noPte : vm.both current pteditValidMaskPte = false :=
        PteditEntry.both_of_valid valid_eq (by decide)
      rw [PteditEntry.merge, pgd_eq, pud_eq pgdPresent, noPmd, noPte]
      subst current_eq
      rfl
    · rw [if_neg pudPresent] at current_eq ⊢
      rw [Bool.not_eq_false] at pudPresent
      have pmdLink := pmdSame pgdPresent pudPresent
      rw [pmdLink.1, pmdLink.2.1]
      split_ifs at current_eq ⊢ with pmdPresent pmdSize
      · have valid_eq : current.valid = 13 := by rw [← current_eq, resolvedEntry]
        have noPte : vm.both current pteditValidMaskPte = false :=
          PteditEntry.both_of_valid valid_eq (by decide)
        rw [PteditEntry.merge, pgd_eq, pud_eq pgdPresent, pmd_eq pgdPresent pudPresent, noPte]
        subst current_eq
        rfl
      · rw [Bool.not_eq_false] at pmdPresent
        rw [PteditEntry.merge, pgd_eq, pud_eq pgdPresent, pmd_eq pgdPresent pudPresent,
          pte_eq pgdPresent pudPresent pmdPresent pmdSize]
        subst current_eq
        rfl
      · have valid_eq : current.valid = 13 := by rw [← current_eq, resolvedEntry]
        have noPte : vm.both current pteditValidMaskPte = false :=
          PteditEntry.both_of_valid valid_eq (by decide)
        rw [PteditEntry.merge, pgd_eq, pud_eq pgdPresent, pmd_eq pgdPresent pudPresent, noPte]
        subst current_eq
        rfl

namespace WalkedTables

/-- The next walk returns the merged record. -/
theorem pteditResolve_updateAll (walked : WalkedTables mem root)
    (links : vm.KeepsLinks (pteditResolve (ownRoot root) mem address 0)) :
    pteditResolve (ownRoot root) (pteditUpdate (ownRoot root) mem address 0 vm) address 0 =
      vm.merge (pteditResolve (ownRoot root) mem address 0) := by
  have rootTable : tableAt (slots mem) pteditChild 0 root [] = some root := rfl
  have pgdTable : Entry.present (slots mem root (Fin.ofNat 512 (address / 2 ^ 39))) = true → _ :=
    pteditTableAt_pgd rfl
  have pudTable : ∀ pgdPresent : Entry.present
      (slots mem root (Fin.ofNat 512 (address / 2 ^ 39))) = true,
        Entry.present (slots mem (slots mem root (Fin.ofNat 512 (address / 2 ^ 39))).pfn
          (Fin.ofNat 512 (address / 2 ^ 30))) = true → _ :=
    fun pgdPresent pudPresent => pteditTableAt_pud rfl pgdPresent rfl pudPresent
  have pgdSame := walked.sameLink_update links rootTable (by simp)
    (Fin.ofNat 512 (address / 2 ^ 39))
  have pudSame := fun pgdPresent => walked.sameLink_update links (pgdTable pgdPresent) (by simp)
    (Fin.ofNat 512 (address / 2 ^ 30))
  have pmdSame := fun pgdPresent pudPresent =>
    walked.sameLink_update links (pudTable pgdPresent pudPresent) (by simp)
      (Fin.ofNat 512 (address / 2 ^ 21))
  rw [show pteditResolve (ownRoot root) (pteditUpdate (ownRoot root) mem address 0 vm) address 0 =
    _ from pteditResolve_eq walked.root_pos]
  have pgdPrefix : [] ++ [Fin.ofNat 512 (address / 2 ^ 39)] <+: path address := by
    simp [path, directory]
  have pudPrefix : [Fin.ofNat 512 (address / 2 ^ 39)] ++ [Fin.ofNat 512 (address / 2 ^ 30)] <+:
      path address := by
    simp [path, directory]
  have pmdPrefix : [Fin.ofNat 512 (address / 2 ^ 39), Fin.ofNat 512 (address / 2 ^ 30)] ++
      [Fin.ofNat 512 (address / 2 ^ 21)] <+: path address := by
    simp [path, directory]
  apply walkRecord_merge (pteditResolve_eq walked.root_pos).symm
  · rw [walked.slots_update_path rootTable pgdPrefix]
    rfl
  · exact pgdSame
  · intro pgdPresent
    rw [pgdSame.pfn_eq, walked.slots_update_path (pgdTable pgdPresent) pudPrefix]
    rfl
  · intro pgdPresent
    rw [pgdSame.pfn_eq]
    exact pudSame pgdPresent
  · intro pgdPresent pudPresent
    rw [pgdSame.pfn_eq, (pudSame pgdPresent).pfn_eq,
      walked.slots_update_path (pudTable pgdPresent pudPresent) pmdPrefix]
    rfl
  · intro pgdPresent pudPresent
    rw [pgdSame.pfn_eq, (pudSame pgdPresent).pfn_eq]
    exact pmdSame pgdPresent pudPresent
  · intro pgdPresent pudPresent pmdPresent pmdSize
    rw [pgdSame.pfn_eq, (pudSame pgdPresent).pfn_eq, (pmdSame pgdPresent pudPresent).pfn_eq]
    apply walked.slots_update_path _ (List.prefix_refl _)
    rw [← pteditTable, pteditTable_eq]
    simp only [pgdPresent, pudPresent, pmdPresent, pmdSize, Bool.true_eq_false, if_false, if_true]

end WalkedTables

/-- An update of any levels that keeps the links is read back by the next walk, and leaves the
last entry and the translation of every other page. -/
theorem update_read_back (walked : WalkedTables mem root)
    (links : vm.KeepsLinks (pteditResolve (ownRoot root) mem address 0)) :
    pteditResolve (ownRoot root) (pteditUpdate (ownRoot root) mem address 0 vm) address 0 =
        vm.merge (pteditResolve (ownRoot root) mem address 0) ∧
      WalkedTables (pteditUpdate (ownRoot root) mem address 0 vm) root ∧
      ∀ other, pageOf other ≠ pageOf address →
        lastEntry (pteditUpdate (ownRoot root) mem address 0 vm) root other =
            lastEntry mem root other ∧
          translate (pteditUpdate (ownRoot root) mem address 0 vm) root other =
            translate mem root other := by
  refine ⟨walked.pteditResolve_updateAll links, walked.updateAll links, ?_⟩
  intro other otherPage
  exact ⟨walked.lastEntry_updateAll_of_ne links otherPage,
    walked.translate_updateAll_of_ne links otherPage⟩

/-- The page `1` is made read-only at the top level and gets another frame. -/
theorem update_read_back_on_chain :
    ∃ vm : PteditEntry, vm.valid = 17 ∧
      vm.KeepsLinks (pteditResolve (ownRoot 1) chainMemory 0x1000 0) ∧
      pteditResolve (ownRoot 1) (pteditUpdate (ownRoot 1) chainMemory 0x1000 0 vm) 0x1000 0 =
        vm.merge (pteditResolve (ownRoot 1) chainMemory 0x1000 0) ∧
      translate (pteditUpdate (ownRoot 1) chainMemory 0x1000 0 vm) 1 0x2000 =
        translate chainMemory 1 0x2000 := by
  have links : (resolvedEntry 0x1000 0x2005 0 0 0 0x77007 17).KeepsLinks
      (pteditResolve (ownRoot 1) chainMemory 0x1000 0) :=
    ⟨⟨by decide +kernel, by decide +kernel, by decide +kernel⟩,
      ⟨by decide +kernel, by decide +kernel, by decide +kernel⟩,
      ⟨by decide +kernel, by decide +kernel, by decide +kernel⟩⟩
  have readBack := update_read_back chain_walked links
  exact ⟨_, rfl, links, readBack.1, (readBack.2.2 0x2000 (by decide)).2⟩

end UserLevelMmap.PageTable
