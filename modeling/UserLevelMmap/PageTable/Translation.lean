import UserLevelMmap.PageTable.Resolve

/-!
# The translation of the hardware

`Tables` collects what an operating system guarantees about the page tables of a
process: they form a tree, and their frames lie in the window of physical memory
that the library has mapped. Under it the walk of the library and that of the
hardware agree wherever the hardware does not meet a large page, and a write to one
last entry changes the translation of one page.
-/

namespace UserLevelMmap.PageTable

open RadixTree

variable {mem mem' : Bytes} {root address other : ℕ}

/-- The last table on the walk of the hardware for an address. -/
def hardwareTable (mem : Bytes) (root address : ℕ) : Option ℕ :=
  tableAt (slots mem) hardwareChild 0 root (directory address)

/-- The frame holds one of the page tables. -/
def IsTable (mem : Bytes) (root frame : ℕ) : Prop :=
  ∃ path : List (Fin 512), path.length < 4 ∧
    tableAt (slots mem) hardwareChild 0 root path = some frame

/-- The page tables are a tree of four levels in the mapped 32 GiB of physical memory. -/
structure Tables (mem : Bytes) (root : ℕ) : Prop where
  tree : IsTree (slots mem) hardwareChild root 4
  root_pos : 0 < root
  window : ∀ {frame : ℕ}, IsTable mem root frame → frame < 2 ^ 23

/-- The tables along a path of the hardware lie in the mapped 32 GiB of physical memory. -/
def InWindow (mem : Bytes) (root : ℕ) (path : List (Fin 512)) : Prop :=
  ∀ (above : List (Fin 512)) (table : ℕ), above <+: path →
    tableAt (slots mem) hardwareChild 0 root above = some table → table < 2 ^ 23

theorem InWindow.mono {path above : List (Fin 512)} (inWindow : InWindow mem root path)
    (isPrefix : above <+: path) : InWindow mem root above :=
  fun _ _ isAbove => inWindow _ _ (isAbove.trans isPrefix)

theorem Tables.inWindow (tables : Tables mem root) {path : List (Fin 512)}
    (short : path.length < 4) : InWindow mem root path :=
  fun _ _ isPrefix found => tables.window ⟨_, Nat.lt_of_le_of_lt isPrefix.length_le short, found⟩

/-- The page number of an address, in the 48 bits that are translated. -/
def pageOf (address : ℕ) : ℕ :=
  address / 2 ^ 12 % 2 ^ 36

/-- The indices of an address in the tables of all four levels. -/
def path (address : ℕ) : List (Fin 512) :=
  directory address ++ [leafIndex address]

theorem length_lt_of_onPath {above : List (Fin 512)} {index : Fin 512}
    (isPrefix : above ++ [index] <+: path address) : above.length < 4 := by
  have short := isPrefix.length_le
  simp only [path, directory, List.length_append, List.length_cons, List.length_nil] at short
  omega

theorem path_eq_iff : path address = path other ↔ pageOf address = pageOf other := by
  simp only [path, directory, leafIndex, List.cons_append, List.nil_append, List.cons.injEq,
    and_true, Fin.ext_iff, Fin.val_ofNat, pageOf]
  omega

/-! ## The two walks -/

theorem hardwareChild_eq_some {level frame : ℕ} {entry : Entry}
    (child : hardwareChild level entry = some frame) :
    entry.present = true ∧ (level ≠ 0 → entry.size = false) ∧ entry.frame = frame := by
  simpa [hardwareChild, and_assoc] using child

theorem hardwareChild_of_present {level : ℕ} {entry : Entry} (isPresent : entry.present = true)
    (notLarge : level ≠ 0 → entry.size = false) : hardwareChild level entry = some entry.frame :=
  if_pos ⟨isPresent, notLarge⟩

theorem pteditChild_of_hardwareChild {level frame : ℕ} {entry : Entry}
    (child : hardwareChild level entry = some frame) (small : frame < 2 ^ 28) :
    pteditChild level entry = some frame := by
  rcases hardwareChild_eq_some child with ⟨isPresent, notLarge, frame_eq⟩
  have allowed : level = 2 → entry.size = false := fun isLast => notLarge (by omega)
  rw [pteditChild, if_pos ⟨isPresent, allowed⟩, Entry.pfn_eq_frame (by omega), frame_eq]

/-- In the window the library reaches the tables that the hardware reaches. -/
theorem InWindow.pteditTableAt {path : List (Fin 512)} {frame : ℕ}
    (inWindow : InWindow mem root path)
    (found : tableAt (slots mem) hardwareChild 0 root path = some frame) :
    tableAt (slots mem) pteditChild 0 root path = some frame := by
  induction path using List.reverseRecOn generalizing frame with
  | nil => exact found
  | append_singleton path index ih =>
      have small := inWindow _ _ (List.prefix_refl _) found
      have inWindowAbove : InWindow mem root path := inWindow.mono (List.prefix_append _ _)
      rw [tableAt_append] at found ⊢
      rw [Option.bind_eq_some_iff] at found ⊢
      rcases found with ⟨table, foundTable, child⟩
      exact ⟨table, ih inWindowAbove foundTable,
        pteditChild_of_hardwareChild child (by omega)⟩

namespace Tables

theorem pteditTableAt (tables : Tables mem root) {path : List (Fin 512)} {frame : ℕ}
    (short : path.length < 4)
    (found : tableAt (slots mem) hardwareChild 0 root path = some frame) :
    tableAt (slots mem) pteditChild 0 root path = some frame :=
  (tables.inWindow short).pteditTableAt found

theorem pteditTable_of_hardwareTable (tables : Tables mem root) {table : ℕ}
    (found : hardwareTable mem root address = some table) :
    pteditTable mem root address = some table :=
  tables.pteditTableAt (by simp [directory]) found

end Tables

theorem hardwareTable_of_present {pgd pud pmd : Entry}
    (pgd_eq : slots mem root (Fin.ofNat 512 (address / 2 ^ 39)) = pgd)
    (pgdPresent : pgd.present = true)
    (pud_eq : slots mem pgd.frame (Fin.ofNat 512 (address / 2 ^ 30)) = pud)
    (pudPresent : pud.present = true) (pudSize : pud.size = false)
    (pmd_eq : slots mem pud.frame (Fin.ofNat 512 (address / 2 ^ 21)) = pmd)
    (pmdPresent : pmd.present = true) (pmdSize : pmd.size = false) :
    hardwareTable mem root address = some pmd.frame := by
  have pgdChild : hardwareChild 0 pgd = some pgd.frame :=
    hardwareChild_of_present pgdPresent (by simp)
  have pudChild : hardwareChild 1 pud = some pud.frame :=
    hardwareChild_of_present pudPresent (fun _ => pudSize)
  have pmdChild : hardwareChild 2 pmd = some pmd.frame :=
    hardwareChild_of_present pmdPresent (fun _ => pmdSize)
  simp only [hardwareTable, directory, tableAt, Nat.reduceAdd, pgd_eq, pgdChild, pud_eq, pudChild,
    pmd_eq, pmdChild, Option.bind_some]

theorem hardwareTable_eq_some {table : ℕ} (found : hardwareTable mem root address = some table) :
    ∃ pgd pud pmd : Entry,
      slots mem root (Fin.ofNat 512 (address / 2 ^ 39)) = pgd ∧ pgd.present = true ∧
      slots mem pgd.frame (Fin.ofNat 512 (address / 2 ^ 30)) = pud ∧ pud.present = true ∧
      pud.size = false ∧
      slots mem pud.frame (Fin.ofNat 512 (address / 2 ^ 21)) = pmd ∧ pmd.present = true ∧
      pmd.size = false ∧ pmd.frame = table := by
  simp only [hardwareTable, directory, tableAt, Option.bind_eq_some_iff] at found
  rcases found with ⟨first, pgdChild, second, pudChild, third, pmdChild, same⟩
  rw [Option.some.injEq] at same
  rcases hardwareChild_eq_some pgdChild with ⟨pgdPresent, _, rfl⟩
  rcases hardwareChild_eq_some pudChild with ⟨pudPresent, pudSize, rfl⟩
  rcases hardwareChild_eq_some pmdChild with ⟨pmdPresent, pmdSize, rfl⟩
  exact ⟨_, _, _, rfl, pgdPresent, rfl, pudPresent, pudSize (by decide), rfl, pmdPresent,
    pmdSize (by decide), same⟩

theorem translate_of_hardwareTable {table : ℕ}
    (found : hardwareTable mem root address = some table) :
    translate mem root address =
      if (slots mem table (leafIndex address)).present then
        some (slots mem table (leafIndex address)).frame
      else none := by
  rcases hardwareTable_eq_some found with
    ⟨pgd, pud, pmd, pgd_eq, pgdPresent, pud_eq, pudPresent, pudSize, pmd_eq, pmdPresent,
      pmdSize, rfl⟩
  simp only [translate, pgd_eq, pgdPresent, pud_eq, pudPresent, pudSize, pmd_eq, pmdPresent,
    pmdSize, Bool.true_eq_false, Bool.false_eq_true, if_false]

/-- The entries on the walk for a mapped page are present. -/
theorem present_of_translate {frame table : ℕ} {above : List (Fin 512)} {index : Fin 512}
    (mapped : translate mem root address = some frame)
    (isPrefix : above ++ [index] <+: path address)
    (found : tableAt (slots mem) hardwareChild 0 root above = some table) :
    (slots mem table index).present = true := by
  by_contra notPresent
  rw [Bool.not_eq_true] at notPresent
  rcases isPrefix with ⟨rest, same⟩
  rcases above with _ | ⟨i, _ | ⟨j, _ | ⟨k, above⟩⟩⟩ <;>
    simp only [path, directory, List.cons_append, List.nil_append, List.cons.injEq] at same <;>
    simp only [tableAt, Option.bind_eq_some_iff, Option.some.injEq] at found
  · rcases same with ⟨rfl, _⟩
    subst table
    simp only [translate, notPresent, if_true, reduceCtorEq] at mapped
  · rcases same with ⟨rfl, rfl, _⟩
    rcases found with ⟨first, pgdChild, rfl⟩
    rcases hardwareChild_eq_some pgdChild with ⟨pgdPresent, _, rfl⟩
    simp only [translate, pgdPresent, notPresent, Bool.true_eq_false, if_false, if_true,
      reduceCtorEq] at mapped
  · rcases same with ⟨rfl, rfl, rfl, _⟩
    rcases found with ⟨first, pgdChild, second, pudChild, rfl⟩
    rcases hardwareChild_eq_some pgdChild with ⟨pgdPresent, _, rfl⟩
    rcases hardwareChild_eq_some pudChild with ⟨pudPresent, pudSize, rfl⟩
    simp only [translate, pgdPresent, pudPresent, pudSize (by decide), notPresent,
      Bool.true_eq_false, Bool.false_eq_true, if_false, if_true, reduceCtorEq] at mapped
  · rcases same with ⟨rfl, rfl, rfl, same⟩
    have isLast : above = [] ∧ index = leafIndex address := by
      cases above with
      | nil => simpa using congrArg List.head? same
      | cons => simp at same
    rcases isLast with ⟨rfl, rfl⟩
    have foundLast : hardwareTable mem root address = some table := by
      simpa [hardwareTable, directory, tableAt, Option.bind_eq_some_iff] using found
    rw [translate_of_hardwareTable foundLast, notPresent] at mapped
    contradiction

namespace InWindow

theorem descend {path above : List (Fin 512)} {table : ℕ} {index : Fin 512}
    (inWindow : InWindow mem root path) (isPrefix : above ++ [index] <+: path)
    (found : tableAt (slots mem) hardwareChild 0 root above = some table)
    (isPresent : (slots mem table index).present = true)
    (notLarge : above.length ≠ 0 → (slots mem table index).size = false) :
    (slots mem table index).pfn = (slots mem table index).frame ∧
      tableAt (slots mem) hardwareChild 0 root (above ++ [index]) =
        some (slots mem table index).frame := by
  have foundNext : tableAt (slots mem) hardwareChild 0 root (above ++ [index]) =
      some (slots mem table index).frame := by
    rw [tableAt_append, found, Option.bind_some, Nat.zero_add, hardwareChild,
      if_pos ⟨isPresent, notLarge⟩]
  have small := inWindow _ _ isPrefix foundNext
  exact ⟨Entry.pfn_eq_frame (by omega), foundNext⟩

/-- The library finds no other table for an unmapped page than the hardware. -/
theorem hardwareTable_of_unmapped (inWindow : InWindow mem root (directory address))
    (unmapped : translate mem root address = none) :
    hardwareTable mem root address = pteditTable mem root address := by
  cases found : pteditTable mem root address with
  | none =>
      cases foundHardware : hardwareTable mem root address with
      | none => rfl
      | some table =>
          rw [pteditTable, inWindow.pteditTableAt foundHardware] at found
          contradiction
  | some table =>
      rcases pteditTable_eq_some found with
        ⟨pgdPresent, pudPresent, pmdPresent, pmdSize, table_eq⟩
      have rootFound : tableAt (slots mem) hardwareChild 0 root [] = some root := rfl
      have pgdSame := inWindow.descend (by simp [directory]) rootFound pgdPresent (by simp)
      rw [pgdSame.1] at pudPresent pmdPresent pmdSize table_eq
      have pudSize : (slots mem
          (slots mem root (Fin.ofNat 512 (address / 2 ^ 39))).frame
            (Fin.ofNat 512 (address / 2 ^ 30))).size = false := by
        by_contra isLarge
        rw [Bool.not_eq_false] at isLarge
        simp only [translate, pgdPresent, pudPresent, isLarge, Bool.true_eq_false, if_false,
          if_true, reduceCtorEq] at unmapped
      have pudSame := inWindow.descend (by simp [directory]) pgdSame.2 pudPresent
        (fun _ => pudSize)
      rw [pudSame.1] at pmdPresent pmdSize table_eq
      have pmdSame := inWindow.descend (by simp [directory]) pudSame.2 pmdPresent
        (fun _ => pmdSize)
      rw [← table_eq, pmdSame.1]
      exact pmdSame.2

end InWindow

/-! ## Writes to memory -/

theorem entryAddress_disjoint {frame frame' : ℕ} {index index' : Fin 512}
    (distinct : frame ≠ frame' ∨ index ≠ index') :
    entryAddress frame index + 8 ≤ entryAddress frame' index' ∨
      entryAddress frame' index' + 8 ≤ entryAddress frame index := by
  simp only [entryAddress, pteditPfnMultiply, pteditEntrySize, ne_eq, Fin.ext_iff] at *
  have bound := index.isLt
  have bound' := index'.isLt
  omega

theorem slots_writeWord_of_ne {frame table : ℕ} {index written : Fin 512} {word : BitVec 64}
    (distinct : frame ≠ table ∨ index ≠ written) :
    slots (mem.writeWord (entryAddress table written) word) frame index = slots mem frame index :=
  Bytes.readWord_writeWord_of_disjoint (entryAddress_disjoint distinct)

@[simp]
theorem slots_writeWord_self {table : ℕ} {written : Fin 512} {word : BitVec 64} :
    slots (mem.writeWord (entryAddress table written) word) table written = word :=
  Bytes.readWord_writeWord_self word

theorem slots_writeWord_of_present {frame table : ℕ} {index written : Fin 512} {word : BitVec 64}
    (missing : (slots mem table written).present = false)
    (isPresent : (slots mem frame index).present = true) :
    slots (mem.writeWord (entryAddress table written) word) frame index =
      slots mem frame index := by
  apply slots_writeWord_of_ne
  by_contra both
  rw [not_or, not_not, not_not] at both
  rcases both with ⟨rfl, rfl⟩
  rw [isPresent] at missing
  contradiction

theorem hardwareTable_writeWord_of_missing {table found : ℕ} {written : Fin 512}
    {word : BitVec 64} (missing : (slots mem table written).present = false)
    (isFound : hardwareTable mem root address = some found) :
    hardwareTable (mem.writeWord (entryAddress table written) word) root address = some found := by
  rcases hardwareTable_eq_some isFound with
    ⟨pgd, pud, pmd, pgd_eq, pgdPresent, pud_eq, pudPresent, pudSize, pmd_eq, pmdPresent,
      pmdSize, rfl⟩
  have kept : ∀ {frame : ℕ} {index : Fin 512} {entry : Entry}, slots mem frame index = entry →
      entry.present = true →
        slots (mem.writeWord (entryAddress table written) word) frame index = entry := by
    rintro frame index entry rfl isPresent
    exact slots_writeWord_of_present missing isPresent
  exact hardwareTable_of_present (kept pgd_eq pgdPresent) pgdPresent (kept pud_eq pudPresent)
    pudPresent pudSize (kept pmd_eq pmdPresent) pmdPresent pmdSize

/-- The translation of a page depends on the links in the entries along its path only. -/
theorem translate_of_sameLinks
    (agree : ∀ (above : List (Fin 512)) (index : Fin 512) (table : ℕ),
      above ++ [index] <+: path address →
        tableAt (slots mem) hardwareChild 0 root above = some table →
          (slots mem' table index).SameLink (slots mem table index)) :
    translate mem' root address = translate mem root address := by
  unfold translate
  rcases agree [] (Fin.ofNat 512 (address / 2 ^ 39)) _ (by simp [path, directory]) rfl with
    ⟨samePresent, _, sameFrame⟩
  simp only [samePresent, sameFrame]
  clear samePresent sameFrame
  generalize pgd_def : (slots mem root (Fin.ofNat 512 (address / 2 ^ 39)) : Entry) = pgd
  by_cases pgdPresent : pgd.present = false
  · simp only [if_pos pgdPresent]
  · simp only [if_neg pgdPresent]
    rw [Bool.not_eq_false] at pgdPresent
    have pgdTable : tableAt (slots mem) hardwareChild 0 root
        [Fin.ofNat 512 (address / 2 ^ 39)] = some pgd.frame := by
      rw [tableAt, pgd_def, hardwareChild_of_present pgdPresent (by simp)]
      rfl
    rcases agree _ (Fin.ofNat 512 (address / 2 ^ 30)) _ (by simp [path, directory]) pgdTable with
      ⟨samePresent, sameSize, sameFrame⟩
    simp only [samePresent, sameSize, sameFrame]
    clear samePresent sameSize sameFrame
    generalize pud_def : (slots mem pgd.frame (Fin.ofNat 512 (address / 2 ^ 30)) : Entry) = pud
    by_cases pudPresent : pud.present = false
    · simp only [if_pos pudPresent]
    · simp only [if_neg pudPresent]
      rw [Bool.not_eq_false] at pudPresent
      by_cases pudSize : pud.size = true
      · simp only [if_pos pudSize]
      · simp only [if_neg pudSize]
        rw [Bool.not_eq_true] at pudSize
        have pudTable : tableAt (slots mem) hardwareChild 0 root
            [Fin.ofNat 512 (address / 2 ^ 39), Fin.ofNat 512 (address / 2 ^ 30)] =
              some pud.frame := by
          rw [tableAt, pgd_def, hardwareChild_of_present pgdPresent (by simp), Option.bind_some,
            tableAt, pud_def, hardwareChild_of_present pudPresent (fun _ => pudSize)]
          rfl
        rcases agree _ (Fin.ofNat 512 (address / 2 ^ 21)) _ (by simp [path, directory])
            pudTable with ⟨samePresent, sameSize, sameFrame⟩
        simp only [samePresent, sameSize, sameFrame]
        clear samePresent sameSize sameFrame
        generalize pmd_def :
          (slots mem pud.frame (Fin.ofNat 512 (address / 2 ^ 21)) : Entry) = pmd
        by_cases pmdPresent : pmd.present = false
        · simp only [if_pos pmdPresent]
        · simp only [if_neg pmdPresent]
          rw [Bool.not_eq_false] at pmdPresent
          by_cases pmdSize : pmd.size = true
          · simp only [if_pos pmdSize]
          · simp only [if_neg pmdSize]
            rw [Bool.not_eq_true] at pmdSize
            have found := hardwareTable_of_present pgd_def pgdPresent pud_def pudPresent pudSize
              pmd_def pmdPresent pmdSize
            rcases agree _ _ _ (List.prefix_refl _) found with ⟨samePresent, _, sameFrame⟩
            rw [samePresent, sameFrame]

/-- The translation of a page depends on the entries along its path only. -/
theorem translate_congr
    (agree : ∀ (above : List (Fin 512)) (index : Fin 512) (table : ℕ),
      above ++ [index] <+: path address →
        tableAt (slots mem) hardwareChild 0 root above = some table →
          slots mem' table index = slots mem table index) :
    translate mem' root address = translate mem root address := by
  apply translate_of_sameLinks
  intro above index table isPrefix found
  rw [agree above index table isPrefix found]
  exact ⟨rfl, rfl, rfl⟩

/-- Writing an entry that was not present takes no page away, whatever the tables are. -/
theorem translate_writeWord_of_missing {table frame : ℕ} {written : Fin 512} {word : BitVec 64}
    (missing : (slots mem table written).present = false)
    (mapped : translate mem root address = some frame) :
    translate (mem.writeWord (entryAddress table written) word) root address = some frame := by
  rw [← mapped]
  apply translate_congr
  intro above index walked isPrefix found
  exact slots_writeWord_of_present missing (present_of_translate mapped isPrefix found)

theorem translate_of_samePage (samePage : pageOf address = pageOf other) :
    translate mem root address = translate mem root other := by
  unfold pageOf at samePage
  have pgd : (Fin.ofNat 512 (address / 2 ^ 39) : Fin 512) = Fin.ofNat 512 (other / 2 ^ 39) := by
    simp only [Fin.ext_iff, Fin.val_ofNat]
    omega
  have pud : (Fin.ofNat 512 (address / 2 ^ 30) : Fin 512) = Fin.ofNat 512 (other / 2 ^ 30) := by
    simp only [Fin.ext_iff, Fin.val_ofNat]
    omega
  have pmd : (Fin.ofNat 512 (address / 2 ^ 21) : Fin 512) = Fin.ofNat 512 (other / 2 ^ 21) := by
    simp only [Fin.ext_iff, Fin.val_ofNat]
    omega
  have leaf : leafIndex address = leafIndex other := by
    simp only [leafIndex, Fin.ext_iff, Fin.val_ofNat]
    omega
  have inHuge : address / 2 ^ 12 % 2 ^ 18 = other / 2 ^ 12 % 2 ^ 18 := by omega
  have inLarge : address / 2 ^ 12 % 2 ^ 9 = other / 2 ^ 12 % 2 ^ 9 := by omega
  unfold translate
  rw [pgd, pud, pmd, leaf, inHuge, inLarge]

namespace Tables

theorem congr (tables : Tables mem root)
    (agree : ∀ {frame : ℕ}, IsTable mem root frame →
      ∀ index, slots mem' frame index = slots mem frame index) :
    Tables mem' root ∧
      (∀ address, hardwareTable mem' root address = hardwareTable mem root address) ∧
      (∀ address, translate mem' root address = translate mem root address) := by
  have same : ∀ {path : List (Fin 512)}, path.length ≤ 4 →
      tableAt (slots mem') hardwareChild 0 root path =
        tableAt (slots mem) hardwareChild 0 root path :=
    fun short => tableAt_congr (fun isShort found => agree ⟨_, isShort, found⟩) short
  refine ⟨⟨tables.tree.congr (fun short => same (by omega)), tables.root_pos, ?_⟩, ?_, ?_⟩
  · rintro frame ⟨path, short, found⟩
    rw [same (by omega)] at found
    exact tables.window ⟨path, short, found⟩
  · intro address
    apply same
    simp [directory]
  · intro address
    apply translate_congr
    intro above index table isPrefix found
    exact agree ⟨above, length_lt_of_onPath isPrefix, found⟩ index

section Write

variable {table : ℕ} {word : BitVec 64}

theorem tableAt_writeWord (tables : Tables mem root)
    (found : hardwareTable mem root address = some table) {path : List (Fin 512)}
    (short : path.length < 4) :
    tableAt (slots (mem.writeWord (entryAddress table (leafIndex address)) word))
        hardwareChild 0 root path =
      tableAt (slots mem) hardwareChild 0 root path :=
  tables.tree.tableAt_write rfl found
    (fun _ _ distinct => slots_writeWord_of_ne distinct) (by omega)

theorem writeWord (tables : Tables mem root)
    (found : hardwareTable mem root address = some table) :
    Tables (mem.writeWord (entryAddress table (leafIndex address)) word) root where
  tree := tables.tree.congr (tables.tableAt_writeWord found)
  root_pos := tables.root_pos
  window := by
    rintro frame ⟨path, short, foundFrame⟩
    rw [tables.tableAt_writeWord found short] at foundFrame
    exact tables.window ⟨path, short, foundFrame⟩

theorem hardwareTable_writeWord (tables : Tables mem root)
    (found : hardwareTable mem root address = some table) (other : ℕ) :
    hardwareTable (mem.writeWord (entryAddress table (leafIndex address)) word) root other =
      hardwareTable mem root other :=
  tables.tableAt_writeWord found (by simp [directory])

theorem translate_writeWord_self (tables : Tables mem root)
    (found : hardwareTable mem root address = some table)
    (samePage : pageOf other = pageOf address) (isPresent : Entry.present word = true) :
    translate (mem.writeWord (entryAddress table (leafIndex address)) word) root other =
      some (Entry.frame word) := by
  rcases List.append_inj (path_eq_iff.mpr samePage) rfl with ⟨sameDirectory, sameLeaf⟩
  rw [List.cons.injEq] at sameLeaf
  have foundOther : hardwareTable
      (mem.writeWord (entryAddress table (leafIndex address)) word) root other = some table := by
    rw [tables.hardwareTable_writeWord found, hardwareTable, sameDirectory]
    exact found
  rw [translate_of_hardwareTable foundOther, sameLeaf.1, slots_writeWord_self, if_pos isPresent]

theorem translate_writeWord_of_ne (tables : Tables mem root)
    (found : hardwareTable mem root address = some table)
    (otherPage : pageOf other ≠ pageOf address) :
    translate (mem.writeWord (entryAddress table (leafIndex address)) word) root other =
      translate mem root other := by
  have otherPath : path other ≠ path address := fun same => otherPage (path_eq_iff.mp same)
  apply translate_congr
  intro above index frame isPrefix foundFrame
  have short := Nat.le_of_lt_succ (length_lt_of_onPath isPrefix)
  apply tables.tree.slots_write rfl found
    (fun _ _ distinct => slots_writeWord_of_ne distinct) short foundFrame
  intro same
  rw [same] at isPrefix
  exact otherPath (isPrefix.eq_of_length rfl).symm

end Write

end Tables

/-! ## Memory with given tables -/

/-- The memory in which every frame is a table with the given entries. -/
def ofEntries (entries : ℕ → Fin 512 → Entry) : Bytes :=
  fun place =>
    let entry := entries (place / 4096) ⟨place % 4096 / 8, by omega⟩
    BitVec.ofNat 8 (entry.toNat / 256 ^ (place % 8))

theorem slots_ofEntries (entries : ℕ → Fin 512 → Entry) : slots (ofEntries entries) = entries := by
  funext frame index
  have agree : ∀ place, entryAddress frame index ≤ place →
      place < entryAddress frame index + 8 →
        ofEntries entries place =
          Bytes.writeWord (fun _ => 0) (entryAddress frame index) (entries frame index) place := by
    intro place low high
    have bound := index.isLt
    simp only [entryAddress, pteditPfnMultiply, pteditEntrySize] at low high ⊢
    have isFrame : place / 4096 = frame := by omega
    have isIndex : (⟨place % 4096 / 8, by omega⟩ : Fin 512) = index := by
      rw [Fin.ext_iff]
      simp only
      omega
    have isByte : place % 8 = place - (frame * 4096 + index * 8) := by omega
    rw [ofEntries, Bytes.writeWord, Bytes.writeNat, if_pos ⟨low, high⟩]
    simp only [isFrame, isIndex, isByte]
  rw [slots, Bytes.readWord_congr agree, Bytes.readWord_writeWord_self]

end UserLevelMmap.PageTable
