import UserLevelMmap.PageTable.Walk

/-!
# The walk of the library on x86-64

With the definition of `ptedit_init`, the walk of `ptedit_resolve` reads at most
four entries. `pteditTable` is the table in which it reads the last one, and the
lemmas of this file say what `ptedit_resolve`, `ptedit_pte_get_pfn` and
`ptedit_update` do in terms of it.
-/

namespace UserLevelMmap.PageTable

open RadixTree

@[simp] theorem x86_hasP4d : x86.hasP4d = false := rfl
@[simp] theorem x86_hasPud : x86.hasPud = true := rfl
@[simp] theorem x86_hasPmd : x86.hasPmd = true := rfl

theorem x86_pgdi (address : ℕ) :
    x86.pgdi address = (Fin.ofNat 512 (address / 2 ^ 39) : Fin 512) := by
  simp [PagingDefinition.pgdi, x86, Nat.shiftRight_eq_div_pow]

theorem x86_pudi (address : ℕ) :
    x86.pudi address = (Fin.ofNat 512 (address / 2 ^ 30) : Fin 512) := by
  simp [PagingDefinition.pudi, x86, Nat.shiftRight_eq_div_pow]

theorem x86_pmdi (address : ℕ) :
    x86.pmdi address = (Fin.ofNat 512 (address / 2 ^ 21) : Fin 512) := by
  simp [PagingDefinition.pmdi, x86, Nat.shiftRight_eq_div_pow]

theorem x86_pti (address : ℕ) : x86.pti address = (leafIndex address : Fin 512) := by
  simp [PagingDefinition.pti, x86, leafIndex, Nat.shiftRight_eq_div_pow]

variable {mem : Bytes} {root address : ℕ}

theorem readWord_slot (frame : ℕ) (index : Fin 512) :
    mem.readWord (entryAddress frame index) = slots mem frame index := rfl

theorem readWord_root (index : Fin 512) :
    mem.readWord (root * pteditPfnMultiply + index * pteditEntrySize) = slots mem root index := rfl

/-- The record after the walk of the library has read the given entries. -/
def resolvedEntry (address : ℕ) (pgd p4d pud pmd pte : Entry) (valid : BitVec 64) :
    PteditEntry where
  pid := 0
  vaddr := address
  pgd := pgd
  p4d := p4d
  pud := pud
  pmd := pmd
  pte := pte
  valid := valid

theorem pteditResolve_eq (root_pos : 0 < root) :
    pteditResolve (ownRoot root) mem address 0 =
      let pgd : Entry := slots mem root (Fin.ofNat 512 (address / 2 ^ 39))
      let pud : Entry := slots mem pgd.pfn (Fin.ofNat 512 (address / 2 ^ 30))
      let pmd : Entry := slots mem pud.pfn (Fin.ofNat 512 (address / 2 ^ 21))
      let pte : Entry := slots mem pmd.pfn (leafIndex address)
      if pgd.present = false then resolvedEntry address 0 0 0 0 0 0
      else if pud.present = false then resolvedEntry address pgd pgd pud 0 0 5
      else if pmd.present = false then resolvedEntry address pgd pgd pud pmd 0 13
      else if pmd.size = false then resolvedEntry address pgd pgd pud pmd pte 29
      else resolvedEntry address pgd pgd pud pmd 0 13 := by
  have even : ownRoot root 0 / 2 * 2 = root * pteditPfnMultiply := by
    simp only [ownRoot, pteditPfnMultiply]
    omega
  have root_ne : root * pteditPfnMultiply ≠ 0 := by
    simp only [pteditPfnMultiply]
    omega
  unfold pteditResolve pteditResolveUserExt
  simp only [even, if_neg root_ne, x86_pgdi, x86_pudi, x86_pmdi, x86_pti, x86_hasP4d, x86_hasPud,
    x86_hasPmd, Bool.false_eq_true, if_false, if_true, readWord_root, readWord_slot]
  generalize (slots mem root (Fin.ofNat 512 (address / 2 ^ 39)) : Entry) = pgd
  by_cases pgdPresent : pgd.present = false
  · simp only [if_pos pgdPresent]
    rfl
  · simp only [if_neg pgdPresent]
    generalize (slots mem pgd.pfn (Fin.ofNat 512 (address / 2 ^ 30)) : Entry) = pud
    by_cases pudPresent : pud.present = false
    · simp only [if_pos pudPresent]
      rfl
    · simp only [if_neg pudPresent]
      generalize (slots mem pud.pfn (Fin.ofNat 512 (address / 2 ^ 21)) : Entry) = pmd
      by_cases pmdPresent : pmd.present = false
      · simp only [if_pos pmdPresent]
        rfl
      · by_cases pmdSize : pmd.size = false
        · simp only [if_neg pmdPresent, if_pos pmdSize]
          rfl
        · simp only [if_neg pmdPresent, if_neg pmdSize]
          rfl

theorem pteditChild_upper {level : ℕ} (isUpper : level ≠ 2) (entry : Entry) :
    pteditChild level entry = if entry.present = false then none else some entry.pfn := by
  cases isPresent : entry.present <;> simp [pteditChild, isPresent, isUpper]

theorem pteditChild_two (entry : Entry) :
    pteditChild 2 entry =
      if entry.present = false then none
      else if entry.size = false then some entry.pfn
      else none := by
  cases isPresent : entry.present <;> simp [pteditChild, isPresent]

theorem pteditTable_eq :
    pteditTable mem root address =
      let pgd : Entry := slots mem root (Fin.ofNat 512 (address / 2 ^ 39))
      let pud : Entry := slots mem pgd.pfn (Fin.ofNat 512 (address / 2 ^ 30))
      let pmd : Entry := slots mem pud.pfn (Fin.ofNat 512 (address / 2 ^ 21))
      if pgd.present = false then none
      else if pud.present = false then none
      else if pmd.present = false then none
      else if pmd.size = false then some pmd.pfn
      else none := by
  simp only [pteditTable, directory, tableAt]
  rw [pteditChild_upper (by decide)]
  generalize (slots mem root (Fin.ofNat 512 (address / 2 ^ 39)) : Entry) = pgd
  by_cases pgdPresent : pgd.present = false
  · simp only [if_pos pgdPresent, Option.bind_none]
  · simp only [if_neg pgdPresent, Option.bind_some]
    rw [pteditChild_upper (by decide)]
    generalize (slots mem pgd.pfn (Fin.ofNat 512 (address / 2 ^ 30)) : Entry) = pud
    by_cases pudPresent : pud.present = false
    · simp only [if_pos pudPresent, Option.bind_none]
    · simp only [if_neg pudPresent, Option.bind_some, Nat.zero_add, Nat.reduceAdd, pteditChild_two]
      generalize (slots mem pud.pfn (Fin.ofNat 512 (address / 2 ^ 21)) : Entry) = pmd
      split_ifs <;> rfl

theorem pteditTable_eq_some {table : ℕ} (found : pteditTable mem root address = some table) :
    let pgd : Entry := slots mem root (Fin.ofNat 512 (address / 2 ^ 39))
    let pud : Entry := slots mem pgd.pfn (Fin.ofNat 512 (address / 2 ^ 30))
    let pmd : Entry := slots mem pud.pfn (Fin.ofNat 512 (address / 2 ^ 21))
    pgd.present = true ∧ pud.present = true ∧ pmd.present = true ∧ pmd.size = false ∧
      pmd.pfn = table := by
  rw [pteditTable_eq] at found
  dsimp only at found ⊢
  split_ifs at found with pgdPresent pudPresent pmdPresent pmdSize
  rw [Option.some.injEq] at found
  rw [Bool.not_eq_false] at pgdPresent pudPresent pmdPresent
  exact ⟨pgdPresent, pudPresent, pmdPresent, pmdSize, found⟩

theorem pteditResolve_of_table (root_pos : 0 < root) {table : ℕ}
    (found : pteditTable mem root address = some table) :
    (pteditResolve (ownRoot root) mem address 0).valid = 29 ∧
      (pteditResolve (ownRoot root) mem address 0).pmd.pfn = table ∧
      (pteditResolve (ownRoot root) mem address 0).pte = slots mem table (leafIndex address) := by
  rw [pteditTable_eq] at found
  rw [pteditResolve_eq root_pos]
  dsimp only at found ⊢
  split_ifs at found ⊢
  rw [Option.some.injEq] at found
  subst table
  exact ⟨rfl, rfl, rfl⟩

theorem pteditResolve_of_noTable (root_pos : 0 < root)
    (notFound : pteditTable mem root address = none) :
    (pteditResolve (ownRoot root) mem address 0).valid &&& pteditValidMaskPte = 0 := by
  rw [pteditTable_eq] at notFound
  rw [pteditResolve_eq root_pos]
  dsimp only at notFound ⊢
  split_ifs at notFound ⊢
  all_goals
    simp only [resolvedEntry]
    decide

/-- `ptedit_pte_get_pfn` returns the frame in the entry that the walk finds, or `0`. -/
theorem pteditPteGetPfn_eq (root_pos : 0 < root) :
    pteditPteGetPfn (ownRoot root) mem address 0 =
      match pteditTable mem root address with
      | some table => pteditGetPfn (slots mem table (leafIndex address))
      | none => 0 := by
  unfold pteditPteGetPfn
  cases found : pteditTable mem root address with
  | none => simp only [pteditResolve_of_noTable root_pos found, if_true]
  | some table =>
      rcases pteditResolve_of_table root_pos found with ⟨valid_eq, _, pte_eq⟩
      simp only [valid_eq, pte_eq]
      rfl

/-- An update of the last entry writes one word when the walk finds its table. -/
theorem pteditUpdate_eq (root_pos : 0 < root) {vm : PteditEntry}
    (onlyPte : vm.valid = pteditValidMaskPte) :
    pteditUpdate (ownRoot root) mem address 0 vm =
      match pteditTable mem root address with
      | some table => mem.writeWord (entryAddress table (leafIndex address)) vm.pte
      | none => mem := by
  have root_ne : ownRoot root 0 / 2 * 2 ≠ 0 := by
    simp only [ownRoot, pteditPfnMultiply]
    omega
  have others : pteditValidMaskPte &&& pteditValidMaskPmd = 0 ∧
      pteditValidMaskPte &&& pteditValidMaskPud = 0 ∧
      pteditValidMaskPte &&& pteditValidMaskP4d = 0 ∧
      pteditValidMaskPte &&& pteditValidMaskPgd = 0 := by decide
  unfold pteditUpdate pteditUpdateUserExt
  simp only [if_neg root_ne, onlyPte, others.1, others.2.1, others.2.2.1, others.2.2.2, ne_eq,
    not_true_eq_false, decide_false, Bool.false_and, Bool.false_eq_true, if_false, x86_pti]
  rw [← pteditResolve]
  cases found : pteditTable mem root address with
  | none => simp [pteditResolve_of_noTable root_pos found]
  | some table =>
      rcases pteditResolve_of_table root_pos found with ⟨valid_eq, pfn_eq, _⟩
      simp only [valid_eq, pfn_eq]
      rfl

end UserLevelMmap.PageTable
