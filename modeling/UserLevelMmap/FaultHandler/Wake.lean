import UserLevelMmap.FaultHandler.Basic
import UserLevelMmap.PageTable.Translation

/-!
# What a wake is worth

Between the fill of `given_page` and the wake the handler looks up the frame of
`given_page` and writes it into the entry of the fault address. Neither step looks at
what the walk has found: `ptedit_pte_get_pfn` answers `0` without a last entry, as for
a large page, and `ptedit_update` writes nothing without a last table. The sibling
`ptedit_pte_set_pfn` returns early in the second case; the handler wakes the thread in
both.

Nothing is assumed here about the shape of the page tables. The entry that the handler
writes was not present, so it is on the walk of no mapped page and not above itself on
the walk of the fault address.
-/

namespace UserLevelMmap.FaultHandler

open PageTable RadixTree

variable {mem : Bytes} {root address givenPage : ℕ}

/-- The page of the fault address is mapped to the frame that backs `given_page`, which
is not frame `0`. -/
def Justified (mem : Bytes) (root address givenPage : ℕ) : Prop :=
  ∃ frame, translate mem root address = some frame ∧
    translate mem root givenPage = some frame ∧ frame ≠ 0

/-- How the kernel maps a page that has been written: by an entry of the last level, or as
a part of a page of 2 MiB. -/
inductive Backed (mem : Bytes) (root givenPage : ℕ) : Prop where
  | small (table : ℕ) (found : hardwareTable mem root givenPage = some table)
      (isPresent : (slots mem table (leafIndex givenPage)).present = true)
  | large (table : ℕ)
      (found : tableAt (slots mem) hardwareChild 0 root ((directory givenPage).take 2) = some table)
      (isPresent :
        (slots mem table (Fin.ofNat 512 (givenPage / 2 ^ 21)) : Entry).present = true)
      (isLarge : (slots mem table (Fin.ofNat 512 (givenPage / 2 ^ 21)) : Entry).size = true)

theorem Backed.present (backed : Backed mem root givenPage) {table : ℕ}
    (found : hardwareTable mem root givenPage = some table) :
    (slots mem table (leafIndex givenPage)).present = true := by
  cases backed with
  | small other foundOther isPresent =>
      rw [found, Option.some.injEq] at foundOther
      rw [foundOther]
      exact isPresent
  | large other foundOther isPresent isLarge =>
      have split : directory givenPage =
          (directory givenPage).take 2 ++ [Fin.ofNat 512 (givenPage / 2 ^ 21)] := rfl
      rw [hardwareTable, split, tableAt_append, foundOther, Option.bind_some] at found
      have notLarge := (hardwareChild_eq_some found).2.1 (by simp [directory])
      rw [isLarge] at notLarge
      contradiction

/-- The handler writes one entry of the page table, or nothing. -/
theorem install_eq (root_pos : 0 < root) :
    install root mem address givenPage =
      match pteditTable mem root address with
      | some table =>
          mem.writeWord (entryAddress table (leafIndex address))
            (installedEntry (slots mem table (leafIndex address))
              (pteditPteGetPfn (ownRoot root) mem givenPage 0))
      | none => mem := by
  unfold install
  rw [pteditUpdate_eq root_pos rfl]
  cases found : pteditTable mem root address with
  | none => rfl
  | some table =>
      simp only [editedEntry, (pteditResolve_of_table root_pos found).2.2]

theorem install_of_noRoot : install 0 mem address givenPage = mem := by
  simp [install, pteditUpdate, pteditUpdateUserExt, ownRoot]

theorem pfn_of_table (root_pos : 0 < root) {table : ℕ}
    (found : pteditTable mem root givenPage = some table) :
    (pteditPteGetPfn (ownRoot root) mem givenPage 0).toNat =
      (slots mem table (leafIndex givenPage)).frame := by
  rw [pteditPteGetPfn_eq root_pos, found, toNat_pteditGetPfn]

theorem pfn_of_small (tables : Tables mem root) {table : ℕ}
    (found : hardwareTable mem root givenPage = some table) :
    (pteditPteGetPfn (ownRoot root) mem givenPage 0).toNat =
      (slots mem table (leafIndex givenPage)).frame :=
  pfn_of_table tables.root_pos (tables.pteditTable_of_hardwareTable found)

theorem pfn_lt (root_pos : 0 < root) :
    (pteditPteGetPfn (ownRoot root) mem givenPage 0).toNat < 2 ^ 40 := by
  rw [pteditPteGetPfn_eq root_pos]
  cases pteditTable mem root givenPage with
  | none => simp
  | some table =>
      rw [toNat_pteditGetPfn]
      exact Entry.frame_lt _

theorem translate_install (tables : Tables mem root) {table : ℕ}
    (found : hardwareTable mem root address = some table) :
    translate (install root mem address givenPage) root address =
      some (pteditPteGetPfn (ownRoot root) mem givenPage 0).toNat := by
  rw [install_eq tables.root_pos, tables.pteditTable_of_hardwareTable found]
  rw [tables.translate_writeWord_self found rfl (present_installedEntry _ _)]
  rw [frame_installedEntry _ (pfn_lt tables.root_pos)]

theorem translate_install_of_ne (tables : Tables mem root) {table other : ℕ}
    (found : hardwareTable mem root address = some table)
    (otherPage : pageOf other ≠ pageOf address) :
    translate (install root mem address givenPage) root other = translate mem root other := by
  rw [install_eq tables.root_pos, tables.pteditTable_of_hardwareTable found]
  exact tables.translate_writeWord_of_ne found otherPage

/-! ## Any page tables -/

/-- The walk for the fault address ends in the table in which the hardware looks for the last
entry, and the walk for `given_page` ends at the last entry of the hardware, with a frame other
than `0`. -/
structure Installable (mem : Bytes) (root address givenPage : ℕ) : Prop where
  root_pos : 0 < root
  slot : ∃ table, hardwareTable mem root address = some table ∧
    pteditTable mem root address = some table
  small : ∃ table, hardwareTable mem root givenPage = some table ∧
    pteditTable mem root givenPage = some table ∧
      (slots mem table (leafIndex givenPage)).frame ≠ 0

/-- The installation of a missing page maps it and keeps the pages that are mapped. -/
theorem translate_install_of_missing (givenPage : ℕ) (root_pos : 0 < root) {table : ℕ}
    (found : hardwareTable mem root address = some table)
    (foundWalk : pteditTable mem root address = some table)
    (unmapped : translate mem root address = none) :
    translate (install root mem address givenPage) root address =
        some (pteditPteGetPfn (ownRoot root) mem givenPage 0).toNat ∧
      ∀ {other frame : ℕ}, translate mem root other = some frame →
        translate (install root mem address givenPage) root other = some frame := by
  have missing : (slots mem table (leafIndex address)).present = false := by
    rw [translate_of_hardwareTable found] at unmapped
    simpa using unmapped
  rw [install_eq root_pos, foundWalk]
  constructor
  · rw [translate_of_hardwareTable (hardwareTable_writeWord_of_missing missing found),
      slots_writeWord_self, if_pos (present_installedEntry _ _),
      frame_installedEntry _ (pfn_lt root_pos)]
  · intro other frame mapped
    exact translate_writeWord_of_missing missing mapped

theorem justified_of_installable (unmapped : translate mem root address = none)
    (backed : Backed mem root givenPage) (installable : Installable mem root address givenPage) :
    Justified (install root mem address givenPage) root address givenPage := by
  rcases installable.slot with ⟨table, found, foundWalk⟩
  rcases installable.small with ⟨givenTable, foundGiven, foundGivenWalk, frame_ne⟩
  rcases translate_install_of_missing givenPage installable.root_pos found foundWalk unmapped
    with
    ⟨installed, kept⟩
  rw [pfn_of_table installable.root_pos foundGivenWalk] at installed
  refine ⟨_, installed, kept ?_, frame_ne⟩
  rw [translate_of_hardwareTable foundGiven, if_pos (backed.present foundGiven)]

theorem pteditTable_of_large {table : ℕ} (inWindow : InWindow mem root (directory givenPage))
    (found : tableAt (slots mem) hardwareChild 0 root ((directory givenPage).take 2) = some table)
    (isLarge : (slots mem table (Fin.ofNat 512 (givenPage / 2 ^ 21)) : Entry).size = true) :
    pteditTable mem root givenPage = none := by
  have split : directory givenPage =
      (directory givenPage).take 2 ++ [Fin.ofNat 512 (givenPage / 2 ^ 21)] := rfl
  have foundWalk := (inWindow.mono (List.take_prefix 2 _)).pteditTableAt found
  rw [pteditTable, split, tableAt_append, foundWalk, Option.bind_some, pteditChild, if_neg]
  rintro ⟨_, notLarge⟩
  rw [notLarge rfl] at isLarge
  contradiction

theorem installable_of_justified (unmapped : translate mem root address = none)
    (backed : Backed mem root givenPage) (inWindow : InWindow mem root (directory address))
    (inWindowGiven : InWindow mem root (directory givenPage))
    (justified : Justified (install root mem address givenPage) root address givenPage) :
    Installable mem root address givenPage := by
  rcases justified with ⟨frame, installed, isGiven, frame_ne⟩
  have root_pos : 0 < root := by
    rw [Nat.pos_iff_ne_zero]
    rintro rfl
    rw [install_of_noRoot, unmapped] at installed
    contradiction
  have sameTable := inWindow.hardwareTable_of_unmapped unmapped
  cases foundWalk : pteditTable mem root address with
  | none =>
      rw [install_eq root_pos, foundWalk, unmapped] at installed
      contradiction
  | some table =>
      rw [foundWalk] at sameTable
      rcases translate_install_of_missing givenPage root_pos sameTable foundWalk unmapped with
        ⟨mapped, kept⟩
      rw [mapped, Option.some.injEq] at installed
      refine ⟨root_pos, ⟨table, sameTable, foundWalk⟩, ?_⟩
      cases backed with
      | small givenTable foundGiven isPresent =>
          have foundGivenWalk := inWindowGiven.pteditTableAt foundGiven
          rw [pfn_of_table root_pos foundGivenWalk] at installed
          exact ⟨givenTable, foundGiven, foundGivenWalk, installed ▸ frame_ne⟩
      | large givenTable foundGiven isPresent isLarge =>
          rw [pteditPteGetPfn_eq root_pos, pteditTable_of_large inWindowGiven foundGiven isLarge]
            at installed
          exact absurd installed.symm frame_ne

/-- Page tables in the frames `1` to `4`: the pages `16` to `23` are mapped to the frames
`32` to `39`, the other pages below `512` have an empty last entry, the pages from `512` to
`1023` are one page of 2 MiB, and all pages above have no last table. -/
def sampleEntries (frame : ℕ) (index : Fin 512) : Entry :=
  if frame = 1 ∧ index.val = 0 then 0x2007#64
  else if frame = 2 ∧ index.val = 0 then 0x3007#64
  else if frame = 3 ∧ index.val = 0 then 0x4007#64
  else if frame = 3 ∧ index.val = 1 then 0x200087#64
  else if frame = 4 ∧ 16 ≤ index.val ∧ index.val < 24 then
    BitVec.ofNat 64 ((index.val + 16) * 4096 + 7)
  else 0#64

def sampleMemory : Bytes :=
  ofEntries sampleEntries

theorem sample_tableAt {path : List (Fin 512)} {frame : ℕ} (short : path.length < 4)
    (found : tableAt (slots sampleMemory) hardwareChild 0 1 path = some frame) :
    path = List.replicate (frame - 1) 0 ∧ 1 ≤ frame ∧ frame ≤ 4 := by
  rw [sampleMemory, slots_ofEntries] at found
  have empty : ∀ level, hardwareChild level 0#64 = none := by
    intro level
    simp [hardwareChild, Entry.present]
  have first : hardwareChild 0 0x2007#64 = some 2 := by decide
  have second : hardwareChild 1 0x3007#64 = some 3 := by decide
  have third : hardwareChild 2 0x4007#64 = some 4 := by decide
  have large : hardwareChild 2 0x200087#64 = none := by decide
  rcases path with _ | ⟨i, _ | ⟨j, _ | ⟨k, rest⟩⟩⟩
  · simp only [tableAt, Option.some.injEq] at found
    subst frame
    simp
  · by_cases isFirst : i = 0
    · simp [tableAt, sampleEntries, isFirst, first] at found
      simp [isFirst, ← found]
    · simp [tableAt, sampleEntries, isFirst, empty] at found
  · by_cases isFirst : i = 0 <;> by_cases isSecond : j = 0 <;>
      simp [tableAt, sampleEntries, isFirst, isSecond, first, second, empty] at found
    simp [isFirst, isSecond, ← found]
  · have noRest : rest = [] := by
      rw [← List.length_eq_zero_iff]
      simp only [List.length_cons] at short
      omega
    subst rest
    by_cases isThird : k = 0
    · by_cases isFirst : i = 0 <;> by_cases isSecond : j = 0 <;>
        simp [tableAt, sampleEntries, isFirst, isSecond, isThird, first, second, third,
          empty] at found
      simp [isFirst, isSecond, isThird, ← found]
    · by_cases isFirst : i = 0 <;> by_cases isSecond : j = 0 <;> by_cases isLarge : k.val = 1 <;>
        simp [tableAt, sampleEntries, isFirst, isSecond, isThird, isLarge, first, second,
          large, empty] at found

theorem sample_tables : Tables sampleMemory 1 where
  tree := by
    intro path other frame short shortOther found foundOther
    rw [(sample_tableAt short found).1, (sample_tableAt shortOther foundOther).1]
  root_pos := by decide
  window := by
    rintro frame ⟨path, short, found⟩
    have bound := (sample_tableAt short found).2.2
    omega

/-- The sample with a last table for the pages from `512` to `1023` outside of the window. The
library looks for it in frame `5`, which has the same first entry. -/
def farEntries (frame : ℕ) (index : Fin 512) : Entry :=
  if frame = 3 ∧ index.val = 1 then 0x10000005007#64
  else if frame = 5 ∧ index.val = 0 then 0x20007#64
  else if frame = 2 ^ 28 + 5 ∧ index.val = 0 then 0x20007#64
  else sampleEntries frame index

/-- Outside of the window the page may be right by chance, so the condition is not necessary. -/
example :
    translate (ofEntries farEntries) 1 0x100000 = none ∧
      Backed (ofEntries farEntries) 1 0x200010 ∧
      Justified (install 1 (ofEntries farEntries) 0x100000 0x200010) 1 0x100000 0x200010 ∧
      ¬Installable (ofEntries farEntries) 1 0x100000 0x200010 := by
  refine ⟨by decide +kernel, .small (2 ^ 28 + 5) (by decide +kernel) (by decide +kernel),
    ⟨32, by decide +kernel, by decide +kernel, by decide⟩, ?_⟩
  rintro ⟨_, _, table, found, foundWalk, _⟩
  have isFar : hardwareTable (ofEntries farEntries) 1 0x200010 = some (2 ^ 28 + 5) := by
    decide +kernel
  have isNear : pteditTable (ofEntries farEntries) 1 0x200010 = some 5 := by
    decide +kernel
  rw [isFar, Option.some.injEq] at found
  rw [isNear, ← found] at foundWalk
  simp at foundWalk

end UserLevelMmap.FaultHandler
