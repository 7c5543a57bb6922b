import UserLevelMmap.PageTable.Translation

/-!
# The tables as the library walks them

`ptedit_resolve` tells large pages from tables at the third level only, so for the
library a page of 1 GiB is one more table. `WalkedTables` asks for a tree in this
sense: every frame that the walk can reach is reached by one path of indices. The
record that `ptedit_resolve` returns then changes with a write to a last entry for
the addresses of one page, and at the last level only. For a single entry this asks
less than a tree: it is `Unshared` when no other walk reads it.
-/

namespace UserLevelMmap.PageTable

open RadixTree

variable {mem mem' : Bytes} {root address other : ℕ}

/-- The table that an entry points to, where a page of 1 GiB counts as a table. -/
def walkChild (level : ℕ) (entry : Entry) : Option ℕ :=
  if entry.present ∧ (level = 2 → entry.size = false) then some entry.frame else none

/-- The frame holds a table that the walk of the library reaches. -/
def IsWalked (mem : Bytes) (root frame : ℕ) : Prop :=
  ∃ path : List (Fin 512), path.length < 4 ∧
    tableAt (slots mem) walkChild 0 root path = some frame

/-- The walked tables are a tree of four levels in the mapped 32 GiB of physical memory. -/
structure WalkedTables (mem : Bytes) (root : ℕ) : Prop where
  tree : IsTree (slots mem) walkChild root 4
  root_pos : 0 < root
  window : ∀ {frame : ℕ}, IsWalked mem root frame → frame < 2 ^ 23

theorem walkChild_of_hardwareChild {level frame : ℕ} {entry : Entry}
    (child : hardwareChild level entry = some frame) : walkChild level entry = some frame := by
  rcases hardwareChild_eq_some child with ⟨isPresent, notLarge, frame_eq⟩
  have allowed : level = 2 → entry.size = false := fun isLast => notLarge (by omega)
  rw [walkChild, if_pos ⟨isPresent, allowed⟩, frame_eq]

theorem walkTable_of_hardwareTable {path : List (Fin 512)} {frame : ℕ}
    (found : tableAt (slots mem) hardwareChild 0 root path = some frame) :
    tableAt (slots mem) walkChild 0 root path = some frame := by
  induction path using List.reverseRecOn generalizing frame with
  | nil => exact found
  | append_singleton path index ih =>
      rw [tableAt_append, Option.bind_eq_some_iff] at found ⊢
      rcases found with ⟨table, foundTable, child⟩
      exact ⟨table, ih foundTable, walkChild_of_hardwareChild child⟩

theorem IsTable.isWalked {frame : ℕ} (isTable : IsTable mem root frame) :
    IsWalked mem root frame := by
  rcases isTable with ⟨path, short, found⟩
  exact ⟨path, short, walkTable_of_hardwareTable found⟩

/-- No entry of the second level maps a page of 1 GiB. -/
def NoHugePages (mem : Bytes) (root : ℕ) : Prop :=
  ∀ {path : List (Fin 512)} {table : ℕ}, path.length = 1 →
    tableAt (slots mem) hardwareChild 0 root path = some table →
      ∀ index, (slots mem table index).present = true → (slots mem table index).size = false

theorem hardwareTable_of_walkTable (noHugePages : NoHugePages mem root)
    {path : List (Fin 512)} {frame : ℕ} (short : path.length < 4)
    (found : tableAt (slots mem) walkChild 0 root path = some frame) :
    tableAt (slots mem) hardwareChild 0 root path = some frame := by
  induction path using List.reverseRecOn generalizing frame with
  | nil => exact found
  | append_singleton path index ih =>
      rw [List.length_append, List.length_singleton] at short
      rw [tableAt_append, Option.bind_eq_some_iff] at found ⊢
      rcases found with ⟨table, foundTable, child⟩
      have foundHardware := ih (by omega) foundTable
      refine ⟨table, foundHardware, ?_⟩
      simp only [walkChild, Nat.zero_add, Option.ite_none_right_eq_some,
        Option.some.injEq] at child
      rcases child with ⟨⟨isPresent, notLarge⟩, frame_eq⟩
      rw [Nat.zero_add, hardwareChild_of_present isPresent, frame_eq]
      intro notTop
      by_cases isLast : path.length = 2
      · exact notLarge isLast
      · exact noHugePages (by omega) foundHardware index isPresent

theorem IsWalked.isTable {frame : ℕ} (isWalked : IsWalked mem root frame)
    (noHugePages : NoHugePages mem root) : IsTable mem root frame := by
  rcases isWalked with ⟨path, short, found⟩
  exact ⟨path, short, hardwareTable_of_walkTable noHugePages short found⟩

/-- Without pages of 1 GiB the walked tables are those of the hardware. -/
theorem Tables.walked (tables : Tables mem root) (noHugePages : NoHugePages mem root) :
    WalkedTables mem root where
  tree path other frame short shortOther found foundOther :=
    tables.tree path other frame short shortOther
      (hardwareTable_of_walkTable noHugePages short found)
      (hardwareTable_of_walkTable noHugePages shortOther foundOther)
  root_pos := tables.root_pos
  window isWalked := tables.window (isWalked.isTable noHugePages)

theorem pteditTableAt_pgd {index : Fin 512} {pgd : Entry} (pgd_eq : slots mem root index = pgd)
    (pgdPresent : pgd.present = true) :
    tableAt (slots mem) pteditChild 0 root [index] = some pgd.pfn := by
  rw [tableAt, pgd_eq, pteditChild_upper (by decide), pgdPresent]
  rfl

theorem pteditTableAt_pud {index next : Fin 512} {pgd pud : Entry}
    (pgd_eq : slots mem root index = pgd) (pgdPresent : pgd.present = true)
    (pud_eq : slots mem pgd.pfn next = pud) (pudPresent : pud.present = true) :
    tableAt (slots mem) pteditChild 0 root [index, next] = some pud.pfn := by
  rw [tableAt, pgd_eq, pteditChild_upper (by decide), pgdPresent]
  simp only [Bool.true_eq_false, if_false, Option.bind_some]
  rw [tableAt, pud_eq, pteditChild_upper (by decide), pudPresent]
  rfl

theorem pteditTable_of_samePage (samePage : pageOf other = pageOf address) :
    pteditTable mem root other = pteditTable mem root address := by
  have sameDirectory := (List.append_inj (path_eq_iff.mpr samePage) rfl).1
  rw [pteditTable, pteditTable, sameDirectory]

theorem leafIndex_of_samePage (samePage : pageOf other = pageOf address) :
    leafIndex other = leafIndex address := by
  have sameLeaf := (List.append_inj (path_eq_iff.mpr samePage) rfl).2
  rw [List.cons.injEq] at sameLeaf
  exact sameLeaf.1

/-- What `ptedit_resolve` returns depends on the entries along the path of the address only. -/
theorem pteditResolve_congr (root_pos : 0 < root)
    (agree : ∀ (above : List (Fin 512)) (index : Fin 512) (table : ℕ),
      above ++ [index] <+: path address →
        tableAt (slots mem) pteditChild 0 root above = some table →
          slots mem' table index = slots mem table index) :
    pteditResolve (ownRoot root) mem' address 0 = pteditResolve (ownRoot root) mem address 0 := by
  rw [pteditResolve_eq root_pos, pteditResolve_eq root_pos]
  dsimp only
  rw [agree [] (Fin.ofNat 512 (address / 2 ^ 39)) root (by simp [path, directory]) rfl]
  generalize pgd_def : (slots mem root (Fin.ofNat 512 (address / 2 ^ 39)) : Entry) = pgd
  by_cases pgdPresent : pgd.present = false
  · simp only [if_pos pgdPresent]
  · have pgdTable := pteditTableAt_pgd pgd_def (Bool.not_eq_false _ ▸ pgdPresent)
    rw [agree _ (Fin.ofNat 512 (address / 2 ^ 30)) _ (by simp [path, directory]) pgdTable]
    generalize pud_def : (slots mem pgd.pfn (Fin.ofNat 512 (address / 2 ^ 30)) : Entry) = pud
    by_cases pudPresent : pud.present = false
    · simp only [if_neg pgdPresent, if_pos pudPresent]
    · have pudTable := pteditTableAt_pud pgd_def (Bool.not_eq_false _ ▸ pgdPresent) pud_def
        (Bool.not_eq_false _ ▸ pudPresent)
      rw [agree _ (Fin.ofNat 512 (address / 2 ^ 21)) _ (by simp [path, directory]) pudTable]
      generalize pmd_def : (slots mem pud.pfn (Fin.ofNat 512 (address / 2 ^ 21)) : Entry) = pmd
      by_cases pmdPresent : pmd.present = false
      · simp only [if_neg pgdPresent, if_neg pudPresent, if_pos pmdPresent]
      · by_cases pmdSize : pmd.size = false
        · have found : pteditTable mem root address = some pmd.pfn := by
            rw [pteditTable_eq]
            simp only [pgd_def, pud_def, pmd_def, if_neg pgdPresent, if_neg pudPresent,
              if_neg pmdPresent, if_pos pmdSize]
          rw [agree _ _ _ (List.prefix_refl _) found]
        · simp only [if_neg pgdPresent, if_neg pudPresent, if_neg pmdPresent, if_neg pmdSize]

/-- The entries in a record. -/
theorem pteditResolve_fields (mem : Bytes) (address : ℕ) (root_pos : 0 < root) :
    let pgd : Entry := slots mem root (Fin.ofNat 512 (address / 2 ^ 39))
    let pud : Entry := slots mem pgd.pfn (Fin.ofNat 512 (address / 2 ^ 30))
    let pmd : Entry := slots mem pud.pfn (Fin.ofNat 512 (address / 2 ^ 21))
    let record := pteditResolve (ownRoot root) mem address 0
    record.pgd = (if pgd.present then pgd else 0) ∧
      (pgd.present = true → record.pud = pud ∧ (pud.present = true → record.pmd = pmd)) := by
  dsimp only
  rw [pteditResolve_eq root_pos]
  dsimp only
  split_ifs <;> simp_all [resolvedEntry]

theorem pteditChild_eq_some {level frame : ℕ} {entry : Entry}
    (child : pteditChild level entry = some frame) : entry.present = true ∧ entry.pfn = frame := by
  unfold pteditChild at child
  split_ifs at child with isChild
  rw [Option.some.injEq] at child
  exact ⟨isChild.1, child⟩

/-- A top entry is shown when it is present. -/
theorem eq_of_shown {old new : Entry}
    (same : (if new.present then new else 0) = if old.present then old else 0)
    (shown : old.present = true ∨ new.present = true) : new = old := by
  have zero : (0 : Entry).present ≠ true := by decide
  split_ifs at same with isNew isOld isOld
  · exact same
  · exact absurd (same ▸ isNew) zero
  · exact absurd (same ▸ isOld) zero
  · exact absurd shown (by simp [isNew, isOld])

/-- Records that agree show the same entries along the path, where these are present. -/
theorem slots_of_pteditResolve (root_pos : 0 < root) {above : List (Fin 512)} {index : Fin 512}
    {frame : ℕ} (isPrefix : above ++ [index] <+: path address)
    (found : tableAt (slots mem) pteditChild 0 root above = some frame)
    (samePgd : (pteditResolve (ownRoot root) mem' address 0).pgd =
      (pteditResolve (ownRoot root) mem address 0).pgd)
    (samePud : (pteditResolve (ownRoot root) mem' address 0).pud =
      (pteditResolve (ownRoot root) mem address 0).pud)
    (samePmd : (pteditResolve (ownRoot root) mem' address 0).pmd =
      (pteditResolve (ownRoot root) mem address 0).pmd)
    (samePte : above = directory address → (pteditResolve (ownRoot root) mem' address 0).pte =
      (pteditResolve (ownRoot root) mem address 0).pte)
    (isPresent : (slots mem' frame index).present = true) :
    slots mem' frame index = slots mem frame index := by
  rcases pteditResolve_fields mem address root_pos with ⟨pgd_eq, lower⟩
  rcases pteditResolve_fields mem' address root_pos with ⟨pgd_eq', lower'⟩
  rw [pgd_eq, pgd_eq'] at samePgd
  have top := eq_of_shown samePgd
  rcases above with _ | ⟨first, rest⟩
  · simp only [path, directory, List.nil_append, List.cons_append, List.cons_prefix_cons]
      at isPrefix
    rw [tableAt, Option.some.injEq] at found
    rw [← found, isPrefix.1] at isPresent ⊢
    exact top (Or.inr isPresent)
  simp only [path, directory, List.cons_append, List.nil_append, List.cons_prefix_cons]
    at isPrefix samePte
  rcases isPrefix with ⟨rfl, isPrefix⟩
  rw [tableAt, Option.bind_eq_some_iff] at found
  rcases found with ⟨pudTable, pudChild, found⟩
  rcases pteditChild_eq_some pudChild with ⟨pgdPresent, rfl⟩
  have pgdSame := top (Or.inl pgdPresent)
  rw [pgdSame] at lower'
  have pudSame := samePud
  rw [(lower pgdPresent).1, (lower' pgdPresent).1] at pudSame
  rcases rest with _ | ⟨second, rest⟩
  · rw [tableAt, Option.some.injEq] at found
    rw [List.nil_append, List.cons_prefix_cons] at isPrefix
    rw [← found, isPrefix.1, pudSame]
  rw [List.cons_append, List.cons_prefix_cons] at isPrefix
  rcases isPrefix with ⟨rfl, isPrefix⟩
  rw [tableAt, Option.bind_eq_some_iff] at found
  rcases found with ⟨pmdTable, pmdChild, found⟩
  rcases pteditChild_eq_some pmdChild with ⟨pudPresent, rfl⟩
  rw [pudSame] at lower'
  have pmdSame := samePmd
  rw [(lower pgdPresent).2 pudPresent, (lower' pgdPresent).2 pudPresent] at pmdSame
  rcases rest with _ | ⟨third, rest⟩
  · rw [tableAt, Option.some.injEq] at found
    rw [List.nil_append, List.cons_prefix_cons] at isPrefix
    rw [← found, isPrefix.1, pmdSame]
  rw [List.cons_append, List.cons_prefix_cons] at isPrefix
  rcases isPrefix with ⟨rfl, isPrefix⟩
  have noRest : rest = [] := by
    have lengths := isPrefix.length_le
    simp only [List.length_append, List.length_cons, List.length_nil] at lengths
    exact List.length_eq_zero_iff.mp (by omega)
  subst noRest
  rw [List.nil_append, List.cons_prefix_cons] at isPrefix
  rw [tableAt, Option.bind_eq_some_iff] at found
  rcases found with ⟨table, child, found⟩
  rw [tableAt] at found
  have foundTable : pteditTable mem root address = some frame := by
    rw [pteditTable, directory, tableAt, pudChild, Option.bind_some, tableAt, pmdChild,
      Option.bind_some, tableAt, child, Option.bind_some, tableAt, found]
  have foundTable' : pteditTable mem' root address = some frame := by
    rw [pteditTable, directory, tableAt, pgdSame, pudChild, Option.bind_some, tableAt, pudSame,
      pmdChild, Option.bind_some, tableAt, pmdSame, child, Option.bind_some, tableAt, found]
  have pteSame := samePte rfl
  rw [(pteditResolve_of_table root_pos foundTable).2.2,
    (pteditResolve_of_table root_pos foundTable').2.2] at pteSame
  rw [isPrefix.1, pteSame]

/-- The frame holds a table for a walk of the library, with the 28 bits of its frame number. -/
def IsRead (mem : Bytes) (root frame : ℕ) : Prop :=
  ∃ path : List (Fin 512), path.length < 4 ∧
    tableAt (slots mem) pteditChild 0 root path = some frame

theorem isRead_of_pteditTable {table : ℕ} (found : pteditTable mem root address = some table) :
    IsRead mem root table :=
  ⟨directory address, by simp [directory], found⟩

theorem Tables.isRead (tables : Tables mem root) {frame : ℕ} (isTable : IsTable mem root frame) :
    IsRead mem root frame := by
  rcases isTable with ⟨path, short, found⟩
  exact ⟨path, short, tables.pteditTableAt short found⟩

/-- Memories that agree on the tables of the library have the same tables, translations and
records. -/
theorem Tables.congr_of_read (tables : Tables mem root)
    (agree : ∀ {frame : ℕ}, IsRead mem root frame →
      ∀ index, slots mem' frame index = slots mem frame index) :
    Tables mem' root ∧ (∀ frame, IsRead mem' root frame ↔ IsRead mem root frame) ∧
      (∀ {path : List (Fin 512)}, path.length < 4 →
        tableAt (slots mem') pteditChild 0 root path =
          tableAt (slots mem) pteditChild 0 root path) ∧
      (∀ address, translate mem' root address = translate mem root address) ∧
      (∀ address, pteditResolve (ownRoot root) mem' address 0 =
        pteditResolve (ownRoot root) mem address 0) := by
  have same : ∀ {path : List (Fin 512)}, path.length < 4 →
      tableAt (slots mem') pteditChild 0 root path =
        tableAt (slots mem) pteditChild 0 root path :=
    fun short => tableAt_congr
      (fun isShort found => agree ⟨_, by omega, found⟩) (Nat.le_refl _)
  rcases tables.congr (fun isTable => agree (tables.isRead isTable)) with ⟨tables', _, sameFrame⟩
  refine ⟨tables', ?_, same, sameFrame, ?_⟩
  · intro frame
    constructor
    · rintro ⟨path, short, found⟩
      exact ⟨path, short, (same short) ▸ found⟩
    · rintro ⟨path, short, found⟩
      exact ⟨path, short, (same short).symm ▸ found⟩
  · intro address
    apply pteditResolve_congr tables.root_pos
    intro above index table isPrefix found
    exact agree ⟨above, length_lt_of_onPath isPrefix, found⟩ index

/-! ## A last entry on one walk -/

/-- No walk reads the last entry of the address but the walks for its page, at their last level. -/
def Unshared (mem : Bytes) (root address table : ℕ) : Prop :=
  ∀ (other : ℕ) (above : List (Fin 512)), above ++ [leafIndex address] <+: path other →
    tableAt (slots mem) pteditChild 0 root above = some table →
      above ++ [leafIndex address] = path address

namespace Unshared

variable {table : ℕ} {word : BitVec 64}

theorem slots_write (unshared : Unshared mem root address table) {above : List (Fin 512)}
    {index : Fin 512} {frame : ℕ} (isPrefix : above ++ [index] <+: path other)
    (foundFrame : tableAt (slots mem) pteditChild 0 root above = some frame)
    (distinct : above ++ [index] ≠ path address) :
    slots (mem.writeWord (entryAddress table (leafIndex address)) word) frame index =
      slots mem frame index := by
  apply slots_writeWord_of_ne
  by_contra both
  rw [not_or, not_not, not_not] at both
  rcases both with ⟨rfl, rfl⟩
  exact distinct (unshared other above isPrefix foundFrame)

theorem pteditResolve_writeWord_of_ne (unshared : Unshared mem root address table)
    (root_pos : 0 < root) (otherPage : pageOf other ≠ pageOf address) :
    pteditResolve (ownRoot root)
        (mem.writeWord (entryAddress table (leafIndex address)) word) other 0 =
      pteditResolve (ownRoot root) mem other 0 := by
  apply pteditResolve_congr root_pos
  intro above index frame isPrefix foundFrame
  apply unshared.slots_write isPrefix foundFrame
  intro same
  rw [same] at isPrefix
  exact otherPage (path_eq_iff.mp (isPrefix.eq_of_length rfl)).symm

theorem pteditResolve_writeWord_self (unshared : Unshared mem root address table)
    (root_pos : 0 < root) (found : pteditTable mem root address = some table) :
    pteditResolve (ownRoot root)
        (mem.writeWord (entryAddress table (leafIndex address)) word) address 0 =
      { pteditResolve (ownRoot root) mem address 0 with pte := word } := by
  -- The entries of the upper levels are those of before.
  have kept : ∀ (above : List (Fin 512)) (index : Fin 512) {frame : ℕ}, above.length < 3 →
      above ++ [index] <+: path address →
        tableAt (slots mem) pteditChild 0 root above = some frame →
          slots (mem.writeWord (entryAddress table (leafIndex address)) word) frame index =
            slots mem frame index := by
    intro above index frame isUpper isPrefix foundFrame
    apply unshared.slots_write isPrefix foundFrame
    intro same
    have lengths := congrArg List.length same
    simp only [path, directory, List.length_append, List.length_cons, List.length_nil] at lengths
    omega
  have written : slots (mem.writeWord (entryAddress table (leafIndex address)) word) table
      (leafIndex address) = word := slots_writeWord_self
  rcases pteditTable_eq_some found with ⟨pgdPresent, pudPresent, pmdPresent, pmdSize, rfl⟩
  have pgdTable := pteditTableAt_pgd rfl pgdPresent
  have pudTable := pteditTableAt_pud rfl pgdPresent rfl pudPresent
  rw [pteditResolve_eq root_pos, pteditResolve_eq root_pos]
  dsimp only
  rw [kept [] _ (by simp) (by simp [path, directory]) rfl]
  rw [kept _ _ (by simp) (by simp [path, directory]) pgdTable]
  rw [kept _ _ (by simp) (by simp [path, directory]) pudTable]
  rw [written]
  simp only [pgdPresent, pudPresent, pmdPresent, pmdSize, reduceCtorEq, if_false, if_true]
  rfl

theorem pteditResolve_writeWord_of_samePage (unshared : Unshared mem root address table)
    (root_pos : 0 < root) (found : pteditTable mem root address = some table)
    (samePage : pageOf other = pageOf address) :
    pteditResolve (ownRoot root)
        (mem.writeWord (entryAddress table (leafIndex address)) word) other 0 =
      { pteditResolve (ownRoot root) mem other 0 with pte := word } := by
  have unsharedOther : Unshared mem root other table := by
    rw [Unshared, leafIndex_of_samePage samePage, path_eq_iff.mpr samePage]
    exact unshared
  rw [← leafIndex_of_samePage samePage]
  apply unsharedOther.pteditResolve_writeWord_self root_pos
  rw [pteditTable_of_samePage samePage, found]

/-- When a write of another entry, present ones only, shows in the last entry of its page and
nowhere else, no other walk reads the place. -/
theorem of_resolve (root_pos : 0 < root) (isPresent : Entry.present word = true)
    (changes : word ≠ slots mem table (leafIndex address))
    (inPage : ∀ other, pageOf other = pageOf address →
      pteditResolve (ownRoot root)
          (mem.writeWord (entryAddress table (leafIndex address)) word) other 0 =
        { pteditResolve (ownRoot root) mem other 0 with pte := word })
    (elsewhere : ∀ other, pageOf other ≠ pageOf address →
      pteditResolve (ownRoot root)
          (mem.writeWord (entryAddress table (leafIndex address)) word) other 0 =
        pteditResolve (ownRoot root) mem other 0) :
    Unshared mem root address table := by
  intro other above isPrefix foundAbove
  by_contra distinct
  have written : slots (mem.writeWord (entryAddress table (leafIndex address)) word) table
      (leafIndex address) = word := slots_writeWord_self
  have kept : slots (mem.writeWord (entryAddress table (leafIndex address)) word) table
      (leafIndex address) = slots mem table (leafIndex address) := by
    by_cases samePage : pageOf other = pageOf address
    · have record := inPage other samePage
      apply slots_of_pteditResolve root_pos isPrefix foundAbove
      · rw [record]
      · rw [record]
      · rw [record]
      · rintro rfl
        rw [← leafIndex_of_samePage samePage, ← path] at distinct
        exact absurd (path_eq_iff.mpr samePage) distinct
      · rw [written]
        exact isPresent
    · have record := elsewhere other samePage
      apply slots_of_pteditResolve root_pos isPrefix foundAbove
      · rw [record]
      · rw [record]
      · rw [record]
      · intro _
        rw [record]
      · rw [written]
        exact isPresent
  rw [written] at kept
  exact changes kept

theorem congr (same : ∀ {path : List (Fin 512)}, path.length < 4 →
      tableAt (slots mem') pteditChild 0 root path = tableAt (slots mem) pteditChild 0 root path) :
    Unshared mem' root address table ↔ Unshared mem root address table := by
  have agree : ∀ {other : ℕ} {above : List (Fin 512)},
      above ++ [leafIndex address] <+: path other →
        tableAt (slots mem') pteditChild 0 root above =
          tableAt (slots mem) pteditChild 0 root above := by
    intro other above isPrefix
    exact same (length_lt_of_onPath isPrefix)
  constructor
  · intro unshared other above isPrefix foundAbove
    exact unshared other above isPrefix ((agree isPrefix).trans foundAbove)
  · intro unshared other above isPrefix foundAbove
    exact unshared other above isPrefix ((agree isPrefix).symm.trans foundAbove)

end Unshared

/-- A write of a present entry shows in the last entry of its page and nowhere else, exactly if
it changes nothing or no other walk reads the place. -/
theorem pteditResolve_writeWord_iff (root_pos : 0 < root) {table : ℕ} {word : BitVec 64}
    (found : pteditTable mem root address = some table) (isPresent : Entry.present word = true) :
    ((∀ other, pageOf other = pageOf address →
        pteditResolve (ownRoot root)
            (mem.writeWord (entryAddress table (leafIndex address)) word) other 0 =
          { pteditResolve (ownRoot root) mem other 0 with pte := word }) ∧
      ∀ other, pageOf other ≠ pageOf address →
        pteditResolve (ownRoot root)
            (mem.writeWord (entryAddress table (leafIndex address)) word) other 0 =
          pteditResolve (ownRoot root) mem other 0) ↔
      word = slots mem table (leafIndex address) ∨ Unshared mem root address table := by
  constructor
  · rintro ⟨inPage, elsewhere⟩
    by_cases unchanged : word = slots mem table (leafIndex address)
    · exact Or.inl unchanged
    · exact Or.inr (.of_resolve root_pos isPresent unchanged inPage elsewhere)
  · rintro (unchanged | unshared)
    · have sameMemory : mem.writeWord (entryAddress table (leafIndex address)) word = mem := by
        rw [unchanged]
        exact Bytes.writeWord_readWord
      rw [sameMemory]
      refine ⟨?_, fun _ _ => rfl⟩
      intro other samePage
      have foundOther : pteditTable mem root other = some table :=
        (pteditTable_of_samePage samePage).trans found
      rw [unchanged, ← leafIndex_of_samePage samePage,
        ← (pteditResolve_of_table root_pos foundOther).2.2]
    · exact ⟨fun _ samePage =>
          unshared.pteditResolve_writeWord_of_samePage root_pos found samePage,
        fun _ otherPage => unshared.pteditResolve_writeWord_of_ne root_pos otherPage⟩

namespace WalkedTables

/-- In the window the 28 bits of the bit-field hold the whole frame number. -/
theorem pteditTableAt (walked : WalkedTables mem root) {path : List (Fin 512)}
    (short : path.length < 4) :
    tableAt (slots mem) pteditChild 0 root path = tableAt (slots mem) walkChild 0 root path := by
  induction path using List.reverseRecOn with
  | nil => rfl
  | append_singleton path index ih =>
      have shortPath : path.length < 4 := by
        rw [List.length_append, List.length_singleton] at short
        omega
      rw [tableAt_append, tableAt_append, ih shortPath]
      cases found : tableAt (slots mem) walkChild 0 root path with
      | none => rfl
      | some table =>
          simp only [Option.bind_some, pteditChild, walkChild, Nat.zero_add]
          split_ifs with isChild
          · have foundNext : tableAt (slots mem) walkChild 0 root (path ++ [index]) =
                some (slots mem table index).frame := by
              rw [tableAt_append, found, Option.bind_some, Nat.zero_add, walkChild, if_pos isChild]
            have inWindow := walked.window ⟨_, short, foundNext⟩
            rw [Entry.pfn_eq_frame (by omega)]
          · rfl

theorem pteditTree (walked : WalkedTables mem root) : IsTree (slots mem) pteditChild root 4 := by
  intro path other frame short shortOther found foundOther
  rw [walked.pteditTableAt short] at found
  rw [walked.pteditTableAt shortOther] at foundOther
  exact walked.tree path other frame short shortOther found foundOther

theorem tables (walked : WalkedTables mem root) : Tables mem root where
  tree path other frame short shortOther found foundOther :=
    walked.tree path other frame short shortOther (walkTable_of_hardwareTable found)
      (walkTable_of_hardwareTable foundOther)
  root_pos := walked.root_pos
  window isTable := walked.window isTable.isWalked

/-- In a tree every entry is on one path. -/
theorem unshared (walked : WalkedTables mem root) {table : ℕ}
    (found : pteditTable mem root address = some table) : Unshared mem root address table := by
  intro other above isPrefix foundAbove
  have same := walked.pteditTree above (directory address) table (length_lt_of_onPath isPrefix)
    (by simp [directory]) foundAbove found
  rw [same, path]

theorem isWalked_of_isRead (walked : WalkedTables mem root) {frame : ℕ}
    (isRead : IsRead mem root frame) : IsWalked mem root frame := by
  rcases isRead with ⟨path, short, found⟩
  exact ⟨path, short, walked.pteditTableAt short ▸ found⟩

end WalkedTables

end UserLevelMmap.PageTable
