import UserLevelMmap.PageTable.Update

/-!
# Memory types

The functions of PTEditor for the memory types of x86-64. The processor has a table of eight
types, which `ptedit_get_mts` reads, and an entry that maps a page selects one of them with
three bits. The third bit is at another place for large pages, where it takes the lowest bit
of the frame number; with the functions for large pages it is the type alone that changes.

`src/PTEditor/demos/uncachable.c` changes the type of a small and of a large page and
restores it. Both changes leave the translation of every address and the type of every other
page as they are.
-/

namespace UserLevelMmap.PageTable

open RadixTree

variable {mem : Bytes} {root address other : ℕ}

/-! ## The functions of the library -/

def pteditPageBitPwt : ℕ := 3
def pteditPageBitPcd : ℕ := 4
def pteditPageBitPat : ℕ := 7
def pteditPageBitPatLarge : ℕ := 12

/-- `ptedit_get_mt` for a table of types that `ptedit_get_mts` has returned. -/
def pteditGetMt (mts : BitVec 64) (mt : ℕ) : BitVec 64 :=
  (mts >>> (mt * 8)) &&& 7

/-- The edit in `ptedit_set_mt`. The mask has the type `int`, so for the upper four types the
shift is undefined. -/
def editMts (mts : BitVec 64) (mt : ℕ) (value : BitVec 8) : Option (BitVec 64) :=
  if mt * 8 < 32 then
    let mask : BitVec 32 := ~~~(7#32 <<< (mt * 8))
    let mts := mts &&& mask.signExtend 64
    some (mts ||| (value.setWidth 64 <<< (mt * 8)))
  else none

/-- A memory type that the processor knows. -/
def isType (type : BitVec 8) : Bool :=
  type.toNat < 8 ∧ type.toNat ≠ 2 ∧ type.toNat ≠ 3

/-- All eight types of the table are known, as in every value of the register. -/
def ValidPat (pat : BitVec 64) : Prop :=
  ∀ i < 8, isType (pat.extractLsb' (8 * i) 8) = true

instance (pat : BitVec 64) : Decidable (ValidPat pat) :=
  inferInstanceAs (Decidable (∀ i < 8, _))

/-- `PTEDITOR_IOCTL_CMD_GET_PAT`. Both halves of the register are read as `int`, and the lower
one is extended by its sign. -/
def getPat (pat : BitVec 64) : BitVec 64 :=
  let low : BitVec 32 := pat.extractLsb' 0 32
  let high : BitVec 32 := pat.extractLsb' 32 32
  low.signExtend 64 ||| (high.signExtend 64 <<< 32)

/-- `PTEDITOR_IOCTL_CMD_SET_PAT`: the value of the register afterwards, or `none` when `wrmsr`
refuses a reserved type and the request ends with a fault in the kernel. -/
def setPat (mts : BitVec 64) : Option (BitVec 64) :=
  if ValidPat mts then some mts else none

/-- `ptedit_set_mt` for a value of the register; `none` is an undefined shift or the fault. -/
def pteditSetMt (pat : BitVec 64) (mt : ℕ) (value : BitVec 8) : Option (BitVec 64) :=
  (editMts (getPat pat) mt value).bind setPat

/-- `ptedit_find_mt`. -/
def pteditFindMt (mts : BitVec 64) (type : BitVec 8) : BitVec 8 :=
  (List.range 8).foldl
    (fun found i =>
      if (mts >>> (i * 8)) &&& 7 = type.setWidth 64 then found ||| (1#8 <<< i) else found) 0#8

/-- `__builtin_ffs` of a small number. -/
def builtinFfs (number : BitVec 8) : ℕ :=
  match (List.range 8).find? (fun i => number.getLsbD i) with
  | some i => i + 1
  | none => 0

/-- `ptedit_find_first_mt`. -/
def pteditFindFirstMt (mts : BitVec 64) (type : BitVec 8) : ℤ :=
  builtinFfs (pteditFindMt mts type) - 1

/-- The two functions that put a type into an entry, which differ in the place of its third
bit. -/
def applyMtAt (patBit : ℕ) (entry : Entry) (mt : BitVec 8) : Entry :=
  let entry := entry &&& ~~~((1#64 <<< pteditPageBitPwt) ||| (1#64 <<< pteditPageBitPcd) |||
    (1#64 <<< patBit))
  let entry := if mt &&& 1 ≠ 0 then entry ||| (1#64 <<< pteditPageBitPwt) else entry
  let entry := if mt &&& 2 ≠ 0 then entry ||| (1#64 <<< pteditPageBitPcd) else entry
  if mt &&& 4 ≠ 0 then entry ||| (1#64 <<< patBit) else entry

/-- `ptedit_apply_mt`. -/
def pteditApplyMt (entry : Entry) (mt : BitVec 8) : Entry :=
  applyMtAt pteditPageBitPat entry mt

/-- `ptedit_apply_mt_huge`. -/
def pteditApplyMtHuge (entry : Entry) (mt : BitVec 8) : Entry :=
  applyMtAt pteditPageBitPatLarge entry mt

/-- `!!(entry & (1ull << bit))`. -/
def testBit (entry : Entry) (bit : ℕ) : BitVec 8 :=
  if entry &&& (1#64 <<< bit) ≠ 0 then 1 else 0

/-- The two functions that read the type of an entry. -/
def extractMtAt (patBit : ℕ) (entry : Entry) : BitVec 8 :=
  testBit entry pteditPageBitPwt ||| (testBit entry pteditPageBitPcd <<< 1) |||
    (testBit entry patBit <<< 2)

/-- `ptedit_extract_mt`. -/
def pteditExtractMt (entry : Entry) : BitVec 8 :=
  extractMtAt pteditPageBitPat entry

/-- `ptedit_extract_mt_huge`. -/
def pteditExtractMtHuge (entry : Entry) : BitVec 8 :=
  extractMtAt pteditPageBitPatLarge entry

/-- The record of a page with another type, as `main` of the demo prepares it. -/
def smallRecord (entry : PteditEntry) (pte : Entry) : PteditEntry :=
  { entry with pte := pte, valid := pteditValidMaskPte }

/-- The record of a large page with another type. -/
def hugeRecord (entry : PteditEntry) (pmd : Entry) : PteditEntry :=
  { entry with pmd := pmd, valid := pteditValidMaskPmd }

/-- The demo gives a small page the first type of the wanted kind, or ends if there is none. -/
def retypePage (pagingRoot : ℕ → ℕ) (mem : Bytes) (mts : BitVec 64) (address : ℕ)
    (type : BitVec 8) : Option Bytes :=
  let entry := pteditResolve pagingRoot mem address 0
  let mt := pteditFindFirstMt mts type
  if mt ≠ -1 then
    some (pteditUpdate pagingRoot mem address 0
      (smallRecord entry (pteditApplyMt entry.pte (BitVec.ofInt 8 mt))))
  else none

/-- The demo gives a large page the first type of the wanted kind. -/
def retypeHugePage (pagingRoot : ℕ → ℕ) (mem : Bytes) (mts : BitVec 64) (address : ℕ)
    (type : BitVec 8) : Option Bytes :=
  let entry := pteditResolve pagingRoot mem address 0
  let mt := pteditFindFirstMt mts type
  if mt ≠ -1 then
    some (pteditUpdate pagingRoot mem address 0
      (hugeRecord entry (pteditApplyMtHuge entry.pmd (BitVec.ofInt 8 mt))))
  else none

/-! ## Bits -/

theorem getLsbD_shiftLeft_bit {bit : ℕ} (bound : bit < 64) (i : ℕ) :
    (1#64 <<< bit).getLsbD i = decide (i = bit) :=
  have asFin : (1#64 <<< (⟨bit, bound⟩ : Fin 64).val).getLsbD i = decide (i = bit) :=
    getLsbD_shiftLeft_one i
  asFin

theorem getLsbD_or_if {condition : Prop} [Decidable condition] (entry : Entry) {bit : ℕ}
    (bound : bit < 64) (i : ℕ) :
    (if condition then entry ||| (1#64 <<< bit) else entry).getLsbD i =
      (entry.getLsbD i || (decide condition && decide (i = bit))) := by
  split_ifs with holds
  · rw [BitVec.getLsbD_or, getLsbD_shiftLeft_bit bound, decide_eq_true holds, Bool.true_and]
  · rw [decide_eq_false holds, Bool.false_and, Bool.or_false]

theorem decide_and_ne_zero (mt : BitVec 8) :
    decide (mt &&& 1 ≠ 0) = mt.getLsbD 0 ∧ decide (mt &&& 2 ≠ 0) = mt.getLsbD 1 ∧
      decide (mt &&& 4 ≠ 0) = mt.getLsbD 2 := by
  revert mt
  decide

/-- The bits of an entry with another type. -/
theorem getLsbD_applyMtAt {patBit : ℕ} (low : 4 < patBit) (high : patBit < 64) (entry : Entry)
    (mt : BitVec 8) (i : ℕ) :
    (applyMtAt patBit entry mt).getLsbD i =
      if i = 3 then mt.getLsbD 0
      else if i = 4 then mt.getLsbD 1
      else if i = patBit then mt.getLsbD 2
      else entry.getLsbD i := by
  rcases decide_and_ne_zero mt with ⟨first, second, third⟩
  unfold applyMtAt pteditPageBitPwt pteditPageBitPcd
  dsimp only
  rw [getLsbD_or_if _ high, getLsbD_or_if _ (by decide), getLsbD_or_if _ (by decide),
    BitVec.getLsbD_and, BitVec.getLsbD_not, BitVec.getLsbD_or, BitVec.getLsbD_or,
    getLsbD_shiftLeft_bit high, getLsbD_shiftLeft_bit (by decide),
    getLsbD_shiftLeft_bit (by decide), first, second, third]
  by_cases isPwt : i = 3
  · simp [isPwt, show ¬3 = patBit by omega]
  · by_cases isPcd : i = 4
    · simp [isPcd, show ¬4 = patBit by omega]
    · by_cases isPat : i = patBit
      · simp [isPat, show ¬patBit = 3 by omega, show ¬patBit = 4 by omega]
      · by_cases bound : i < 64
        · simp [isPwt, isPcd, isPat, bound]
        · simp [isPwt, isPcd, isPat, BitVec.getLsbD_of_ge entry i (by omega)]

theorem testBit_eq (entry : Entry) {bit : ℕ} (bound : bit < 64) :
    testBit entry bit = if entry.getLsbD bit then 1 else 0 := by
  unfold testBit
  exact if_congr (and_shiftLeft_one_ne_zero entry ⟨bit, bound⟩) rfl rfl

/-- The index of the type that an entry selects. -/
def patIndex (patBit : ℕ) (entry : Entry) : ℕ :=
  (entry.getLsbD 3).toNat + 2 * (entry.getLsbD 4).toNat + 4 * (entry.getLsbD patBit).toNat

theorem toNat_extractMtAt {patBit : ℕ} (bound : patBit < 64) (entry : Entry) :
    (extractMtAt patBit entry).toNat = patIndex patBit entry := by
  unfold extractMtAt patIndex pteditPageBitPwt pteditPageBitPcd
  rw [testBit_eq entry bound, testBit_eq entry (by decide), testBit_eq entry (by decide)]
  cases entry.getLsbD 3 <;> cases entry.getLsbD 4 <;> cases entry.getLsbD patBit <;> rfl

theorem patIndex_applyMtAt {patBit : ℕ} (low : 4 < patBit) (high : patBit < 64) (entry : Entry)
    (mt : BitVec 8) : patIndex patBit (applyMtAt patBit entry mt) = mt.toNat % 8 := by
  have digits : ∀ mt : BitVec 8,
      (mt.getLsbD 0).toNat + 2 * (mt.getLsbD 1).toNat + 4 * (mt.getLsbD 2).toNat =
        mt.toNat % 8 := by
    decide
  unfold patIndex
  rw [getLsbD_applyMtAt low high, getLsbD_applyMtAt low high, getLsbD_applyMtAt low high,
    if_pos rfl, if_neg (by decide), if_pos rfl, if_neg (by omega), if_neg (by omega), if_pos rfl]
  exact digits mt

/-- The index that was applied to an entry is extracted again, with its three bits. -/
theorem extractMt_applyMt (entry : Entry) (mt : BitVec 8) :
    (pteditExtractMt (pteditApplyMt entry mt)).toNat = mt.toNat % 8 ∧
      (pteditExtractMtHuge (pteditApplyMtHuge entry mt)).toNat = mt.toNat % 8 := by
  constructor
  · rw [pteditExtractMt, pteditApplyMt, toNat_extractMtAt (by decide)]
    exact patIndex_applyMtAt (by decide) (by decide) entry mt
  · rw [pteditExtractMtHuge, pteditApplyMtHuge, toNat_extractMtAt (by decide)]
    exact patIndex_applyMtAt (by decide) (by decide) entry mt

/-! ## The table of types -/

theorem getLsbD_foldl_or {P : ℕ → Prop} [DecidablePred P] {count i : ℕ} (bound : count ≤ 8) :
    ((List.range count).foldl (fun found i => if P i then found ||| (1#8 <<< i) else found)
      0#8).getLsbD i = decide (i < count ∧ P i) := by
  induction count with
  | zero => simp
  | succ count ih =>
      rw [List.range_succ, List.foldl_append, List.foldl_cons, List.foldl_nil]
      have one : (1#8 <<< count).getLsbD i = decide (i = count) := by
        rw [← BitVec.twoPow_eq, BitVec.getLsbD_twoPow]
        by_cases isCount : count = i
        · simp [isCount, show i < 8 by omega]
        · simp [isCount, Ne.symm isCount]
      by_cases isLast : i = count
      · subst isLast
        split_ifs with holds
        · rw [BitVec.getLsbD_or, one]
          simp [holds]
        · rw [ih (by omega)]
          simp [holds]
      · have upTo : i < count + 1 ↔ i < count := by omega
        split_ifs with holds
        · rw [BitVec.getLsbD_or, one, ih (by omega)]
          simp [isLast, upTo]
        · rw [ih (by omega)]
          simp [upTo]

/-- `ptedit_find_first_mt` returns the first place of a type in the table. -/
theorem pteditFindFirstMt_eq {mts : BitVec 64} {type : BitVec 8} :
    (pteditFindFirstMt mts type = -1 ∧ ∀ i < 8, pteditGetMt mts i ≠ type.setWidth 64) ∨
    ∃ i : ℕ, i < 8 ∧ pteditFindFirstMt mts type = i ∧ pteditGetMt mts i = type.setWidth 64 ∧
      ∀ j < i, pteditGetMt mts j ≠ type.setWidth 64 := by
  have bits : ∀ i, (pteditFindMt mts type).getLsbD i =
      decide (i < 8 ∧ pteditGetMt mts i = type.setWidth 64) :=
    fun i => getLsbD_foldl_or (le_refl 8)
  unfold pteditFindFirstMt builtinFfs
  cases found : (List.range 8).find? (fun i => (pteditFindMt mts type).getLsbD i) with
  | none =>
      left
      refine ⟨rfl, ?_⟩
      intro i bound
      have isClear := List.find?_eq_none.mp found i (List.mem_range.mpr bound)
      rw [bits, decide_eq_true_eq] at isClear
      exact fun same => isClear ⟨bound, same⟩
  | some i =>
      right
      rcases List.find?_range_eq_some.mp found with ⟨isSet, isRange, before⟩
      rw [bits, decide_eq_true_eq] at isSet
      refine ⟨i, isSet.1, by simp, isSet.2, ?_⟩
      intro j isBefore
      have isClear := before j isBefore
      rw [bits, Bool.not_eq_true', decide_eq_false_iff_not] at isClear
      exact fun same => isClear ⟨by omega, same⟩

/-! ## The entry that maps an address -/

/-- The level and the entry that map an address: a page of 1 GiB, 2 MiB or 4 KiB for the
levels `1` to `3`. -/
def mapping (mem : Bytes) (root address : ℕ) : Option (ℕ × Entry) :=
  (stop (slots mem) hardwareChild 0 root (path address)).filter (fun found => found.2.present)

/-- The frame of 4 KiB in which an address is, by the entry that maps it. -/
def mappedFrame (address : ℕ) : ℕ × Entry → ℕ
  | (1, entry) => entry.frame / 2 ^ 18 * 2 ^ 18 + address / 2 ^ 12 % 2 ^ 18
  | (2, entry) => entry.frame / 2 ^ 9 * 2 ^ 9 + address / 2 ^ 12 % 2 ^ 9
  | (_, entry) => entry.frame

/-- A type of the table `pat` as the processor reads it. -/
def typeAt (pat : BitVec 64) (index : ℕ) : ℕ :=
  (pat.extractLsb' (8 * index) 3).toNat

/-- The memory type of an address, of which the third bit is at another place in the entries
of large pages. -/
def memoryType (pat : BitVec 64) (mem : Bytes) (root address : ℕ) : Option ℕ :=
  (mapping mem root address).map
    (fun found => typeAt pat (patIndex (if found.1 = 3 then 7 else 12) found.2))

theorem toNat_pteditGetMt (mts : BitVec 64) (mt : ℕ) :
    (pteditGetMt mts mt).toNat = typeAt mts mt := by
  have mask : (7 : BitVec 64).toNat = 2 ^ 3 - 1 := rfl
  rw [pteditGetMt, BitVec.toNat_and, BitVec.toNat_ushiftRight, mask, Nat.and_two_pow_sub_one_eq_mod,
    typeAt, BitVec.extractLsb'_toNat, Nat.mul_comm]

theorem translate_eq_mapping :
    translate mem root address = (mapping mem root address).map (mappedFrame address) := by
  unfold translate mapping
  simp only [path, directory, List.cons_append, List.nil_append, stop, hardwareChild]
  generalize (slots mem root (Fin.ofNat 512 (address / 2 ^ 39)) : Entry) = pgd
  cases pgdPresent : pgd.present with
  | false => simp [pgdPresent]
  | true =>
      simp only [ne_eq, not_true_eq_false, false_imp_iff, and_self, if_true]
      generalize (slots mem pgd.frame (Fin.ofNat 512 (address / 2 ^ 30)) : Entry) = pud
      cases pudPresent : pud.present with
      | false => simp [pudPresent]
      | true =>
          cases pudSize : pud.size with
          | true => simp [pudPresent, mappedFrame]
          | false =>
              simp only [implies_true, and_self, if_true, Bool.true_eq_false, Bool.false_eq_true,
                if_false]
              generalize (slots mem pud.frame (Fin.ofNat 512 (address / 2 ^ 21)) : Entry) = pmd
              cases pmdPresent : pmd.present with
              | false => simp [pmdPresent]
              | true =>
                  cases pmdSize : pmd.size with
                  | true => simp [pmdPresent, mappedFrame]
                  | false =>
                      simp only [implies_true, and_self, if_true, Bool.true_eq_false,
                        Bool.false_eq_true, if_false]
                      generalize (slots mem pmd.frame (leafIndex address) : Entry) = pte
                      cases ptePresent : pte.present with
                      | false => simp [ptePresent]
                      | true => simp [ptePresent, mappedFrame]

/-- The entry that maps an address is in the given table, below the given path. -/
structure MappedAt (mem : Bytes) (root address : ℕ) (above : List (Fin 512)) (index : Fin 512)
    (table : ℕ) : Prop where
  isPrefix : above ++ [index] <+: path address
  found : tableAt (slots mem) hardwareChild 0 root above = some table
  isPresent : (slots mem table index).present = true
  stops : above.length + 1 < 4 → hardwareChild above.length (slots mem table index) = none

theorem exists_mappedAt {level : ℕ} {entry : Entry}
    (mapped : mapping mem root address = some (level, entry)) :
    ∃ above index table, MappedAt mem root address above index table ∧ above.length = level ∧
      slots mem table index = entry := by
  have isWhole : (path address).length = 4 := rfl
  have nonempty : path address ≠ [] := List.ne_nil_of_length_eq_add_one isWhole
  rw [mapping, Option.filter_eq_some_iff] at mapped
  rcases exists_stop (slots mem) hardwareChild 0 root nonempty with
    ⟨above, index, rest, table, path_eq, found, ends⟩
  rw [path_eq, stop_of_tableAt found ends, Nat.zero_add, Option.some.injEq, Prod.mk.injEq] at mapped
  rcases mapped with ⟨⟨rfl, rfl⟩, isPresent⟩
  refine ⟨above, index, table, ⟨⟨rest, by simp [path_eq]⟩, found, isPresent, ?_⟩, rfl, rfl⟩
  intro isUpper
  rw [path_eq, List.length_append, List.length_cons] at isWhole
  rcases ends with rfl | isLast
  · rw [List.length_nil] at isWhole
    omega
  · rw [Nat.zero_add] at isLast
    exact isLast

namespace MappedAt

variable {above : List (Fin 512)} {index : Fin 512} {table : ℕ} {word : BitVec 64}

theorem short (mapped : MappedAt mem root address above index table) : above.length < 4 := by
  have isWhole : (path address).length = 4 := rfl
  have isShort := mapped.isPrefix.length_le
  rw [List.length_append, List.length_singleton, isWhole] at isShort
  omega

/-- The entry maps all addresses whose path leads through it. -/
theorem mapping_eq (mapped : MappedAt mem root address above index table)
    (through : above ++ [index] <+: path other) :
    mapping mem root other = some (above.length, slots mem table index) := by
  rcases through with ⟨rest, path_eq⟩
  have isWhole : (path other).length = 4 := rfl
  rw [List.append_assoc, List.singleton_append] at path_eq
  have ends : rest = [] ∨
      hardwareChild (0 + above.length) (slots mem table index) = none := by
    rw [Nat.zero_add]
    by_cases isEnd : rest = []
    · exact Or.inl isEnd
    · have isLonger := List.length_pos_iff.mpr isEnd
      rw [← path_eq, List.length_append, List.length_cons] at isWhole
      exact Or.inr (mapped.stops (by omega))
  rw [mapping, ← path_eq, stop_of_tableAt mapped.found ends, Nat.zero_add]
  simp [mapped.isPresent]

theorem elsewhere (mem : Bytes) (table : ℕ) (index : Fin 512) (word : BitVec 64) (frame : ℕ)
    (place : Fin 512) (distinct : frame ≠ table ∨ place ≠ index) :
    slots (mem.writeWord (entryAddress table index) word) frame place = slots mem frame place :=
  slots_writeWord_of_ne distinct

theorem tableAt_writeWord (mapped : MappedAt mem root address above index table)
    (tables : Tables mem root)
    (stops : above.length + 1 < 4 → hardwareChild above.length word = none)
    {path : List (Fin 512)} (isShort : path.length < 4) :
    tableAt (slots (mem.writeWord (entryAddress table index) word)) hardwareChild 0 root path =
      tableAt (slots mem) hardwareChild 0 root path := by
  refine tables.tree.tableAt_write_stopped mapped.short mapped.found mapped.stops ?_
    (elsewhere mem table index word) isShort
  rw [slots_writeWord_self]
  exact stops

theorem tables_writeWord (mapped : MappedAt mem root address above index table)
    (tables : Tables mem root)
    (stops : above.length + 1 < 4 → hardwareChild above.length word = none) :
    Tables (mem.writeWord (entryAddress table index) word) root where
  tree := tables.tree.congr (mapped.tableAt_writeWord tables stops)
  root_pos := tables.root_pos
  window := by
    rintro frame ⟨path, isShort, found⟩
    rw [mapped.tableAt_writeWord tables stops isShort] at found
    exact tables.window ⟨path, isShort, found⟩

theorem writeWord (mapped : MappedAt mem root address above index table)
    (tables : Tables mem root) (isPresent : Entry.present word = true)
    (stops : above.length + 1 < 4 → hardwareChild above.length word = none) :
    MappedAt (mem.writeWord (entryAddress table index) word) root address above index table where
  isPrefix := mapped.isPrefix
  found := by
    rw [mapped.tableAt_writeWord tables stops mapped.short]
    exact mapped.found
  isPresent := by
    rw [slots_writeWord_self]
    exact isPresent
  stops := by
    rw [slots_writeWord_self]
    exact stops

theorem mapping_writeWord_of_ne (mapped : MappedAt mem root address above index table)
    (tables : Tables mem root)
    (stops : above.length + 1 < 4 → hardwareChild above.length word = none)
    (notThrough : ¬above ++ [index] <+: path other) :
    mapping (mem.writeWord (entryAddress table index) word) root other =
      mapping mem root other := by
  have stops' : above.length + 1 < 4 → hardwareChild above.length
      (slots (mem.writeWord (entryAddress table index) word) table index) = none := by
    rw [slots_writeWord_self]
    exact stops
  have isWhole : (path other).length = 4 := rfl
  rw [mapping, mapping, tables.tree.stop_write_of_ne mapped.short mapped.found mapped.stops stops'
    (elsewhere mem table index word) isWhole notThrough]

/-- A new entry that maps the same frame leaves every translation. -/
theorem translate_writeWord (mapped : MappedAt mem root address above index table)
    (tables : Tables mem root) (isPresent : Entry.present word = true)
    (stops : above.length + 1 < 4 → hardwareChild above.length word = none)
    (sameFrame : ∀ other,
      mappedFrame other (above.length, word) =
        mappedFrame other (above.length, slots mem table index)) (other : ℕ) :
    translate (mem.writeWord (entryAddress table index) word) root other =
      translate mem root other := by
  rw [translate_eq_mapping, translate_eq_mapping]
  by_cases through : above ++ [index] <+: path other
  · have after := mapped.writeWord tables isPresent stops
    rw [after.mapping_eq through, mapped.mapping_eq through, slots_writeWord_self,
      Option.map_some, Option.map_some, sameFrame]
  · rw [mapped.mapping_writeWord_of_ne tables stops through]

end MappedAt

/-! ## Pages with another type -/

theorem pteditResolve_of_directory (root_pos : 0 < root) {table : ℕ}
    (found : tableAt (slots mem) pteditChild 0 root
      [Fin.ofNat 512 (address / 2 ^ 39), Fin.ofNat 512 (address / 2 ^ 30)] = some table) :
    (pteditResolve (ownRoot root) mem address 0).valid &&& pteditValidMaskPmd ≠ 0 ∧
      (pteditResolve (ownRoot root) mem address 0).pud.pfn = table ∧
      (pteditResolve (ownRoot root) mem address 0).pmd =
        slots mem table (Fin.ofNat 512 (address / 2 ^ 21)) := by
  simp only [tableAt, Option.bind_eq_some_iff, Option.some.injEq] at found
  rcases found with ⟨first, pgdChild, second, pudChild, rfl⟩
  rw [pteditChild_upper (by decide)] at pgdChild pudChild
  split_ifs at pgdChild with pgdAbsent
  rw [Option.some.injEq] at pgdChild
  subst first
  split_ifs at pudChild with pudAbsent
  rw [Option.some.injEq] at pudChild
  subst second
  rw [pteditResolve_eq root_pos]
  dsimp only
  rw [if_neg pgdAbsent, if_neg pudAbsent]
  split_ifs
  all_goals exact ⟨by simp only [resolvedEntry]; decide, rfl, rfl⟩

namespace MappedAt

variable {above : List (Fin 512)} {index : Fin 512} {table : ℕ}

theorem resolve_small (mapped : MappedAt mem root address above index table)
    (tables : Tables mem root) (isSmall : above.length = 3) :
    (pteditResolve (ownRoot root) mem address 0).pte = slots mem table index ∧
      ∀ vm : PteditEntry, vm.valid = pteditValidMaskPte →
        pteditUpdate (ownRoot root) mem address 0 vm =
          mem.writeWord (entryAddress table index) vm.pte := by
  have isPath : above ++ [index] = directory address ++ [leafIndex address] :=
    mapped.isPrefix.eq_of_length (by rw [List.length_append, isSmall]; rfl)
  rcases List.append_inj' isPath rfl with ⟨rfl, isIndex⟩
  rw [List.cons.injEq] at isIndex
  have found := tables.pteditTable_of_hardwareTable mapped.found
  rw [isIndex.1]
  refine ⟨(pteditResolve_of_table tables.root_pos found).2.2, ?_⟩
  intro vm onlyPte
  rw [pteditUpdate_eq tables.root_pos onlyPte, found]

theorem resolve_large (mapped : MappedAt mem root address above index table)
    (tables : Tables mem root) (isLarge : above.length = 2) :
    (pteditResolve (ownRoot root) mem address 0).pmd = slots mem table index ∧
      ∀ vm : PteditEntry, vm.valid = pteditValidMaskPmd →
        pteditUpdate (ownRoot root) mem address 0 vm =
          mem.writeWord (entryAddress table index) vm.pmd := by
  have isPath : above ++ [index] =
      [Fin.ofNat 512 (address / 2 ^ 39), Fin.ofNat 512 (address / 2 ^ 30)] ++
        [Fin.ofNat 512 (address / 2 ^ 21)] := by
    have isTake := List.prefix_iff_eq_take.mp mapped.isPrefix
    rw [List.length_append, isLarge] at isTake
    exact isTake
  rcases List.append_inj' isPath rfl with ⟨rfl, isIndex⟩
  rw [List.cons.injEq] at isIndex
  rcases pteditResolve_of_directory tables.root_pos
    (tables.pteditTableAt (by simp) mapped.found) with ⟨isValid, table_eq, pmd_eq⟩
  rw [isIndex.1]
  refine ⟨pmd_eq, ?_⟩
  intro vm onlyPmd
  rw [pteditUpdate_writes tables.root_pos]
  generalize pteditResolve (ownRoot root) mem address 0 = current at *
  have notPte : vm.both current pteditValidMaskPte = false := by
    rw [PteditEntry.both, onlyPmd]
    rfl
  have isPmd : vm.both current pteditValidMaskPmd = true := by
    rw [PteditEntry.both, onlyPmd, decide_eq_true isValid]
    rfl
  have notPud : vm.both current pteditValidMaskPud = false := by
    rw [PteditEntry.both, onlyPmd]
    rfl
  have notPgd : vm.both current pteditValidMaskPgd = false := by
    rw [PteditEntry.both, onlyPmd]
    rfl
  simp only [notPte, isPmd, notPud, notPgd, writeEntry, table_eq, Bool.false_eq_true, if_false,
    if_true]

end MappedAt

/-- The type of one page has changed, and nothing else. -/
structure Retyped (mts : BitVec 64) (type : BitVec 8) (level : ℕ) (mem mem' : Bytes)
    (root address : ℕ) : Prop where
  type_eq : ∀ other, (path other).take (level + 1) = (path address).take (level + 1) →
    memoryType mts mem' root other = some type.toNat
  others : ∀ other, (path other).take (level + 1) ≠ (path address).take (level + 1) →
    memoryType mts mem' root other = memoryType mts mem root other
  translations : ∀ other, translate mem' root other = translate mem root other

theorem typeAt_of_found {mts : BitVec 64} {type : BitVec 8}
    (available : pteditFindFirstMt mts type ≠ -1) :
    typeAt mts ((BitVec.ofInt 8 (pteditFindFirstMt mts type)).toNat % 8) = type.toNat := by
  rcases pteditFindFirstMt_eq with ⟨notFound, -⟩ | ⟨i, bound, first_eq, isType, -⟩
  · exact absurd notFound available
  · have index_eq : (BitVec.ofInt 8 (i : ℤ)).toNat % 8 = i := by
      rw [BitVec.ofInt_natCast, BitVec.toNat_ofNat]
      omega
    rw [first_eq, index_eq, ← toNat_pteditGetMt, isType, BitVec.toNat_setWidth]
    have small := type.isLt
    omega

theorem MappedAt.through_iff {above : List (Fin 512)} {index : Fin 512} {table : ℕ}
    (mapped : MappedAt mem root address above index table) :
    above ++ [index] <+: path other ↔
      (path other).take (above.length + 1) = (path address).take (above.length + 1) := by
  have isTake := List.prefix_iff_eq_take.mp mapped.isPrefix
  rw [List.length_append, List.length_singleton] at isTake
  rw [← isTake, List.prefix_iff_eq_take, List.length_append, List.length_singleton]
  exact eq_comm

/-- Writing an entry with another type and the same frame changes the type of its page only. -/
theorem MappedAt.retyped {above : List (Fin 512)} {index : Fin 512} {table : ℕ}
    {mts : BitVec 64} {type : BitVec 8} {word : Entry}
    (mapped : MappedAt mem root address above index table) (tables : Tables mem root)
    (isPresent : word.present = true)
    (stops : above.length + 1 < 4 → hardwareChild above.length word = none)
    (sameFrame : ∀ other,
      mappedFrame other (above.length, word) =
        mappedFrame other (above.length, slots mem table index))
    (isType : typeAt mts (patIndex (if above.length = 3 then 7 else 12) word) = type.toNat) :
    Retyped mts type above.length mem (mem.writeWord (entryAddress table index) word) root
      address where
  type_eq := by
    intro other through
    have after := mapped.writeWord tables isPresent stops
    rw [memoryType, after.mapping_eq (after.through_iff.mpr through), slots_writeWord_self,
      Option.map_some]
    exact congrArg some isType
  others := by
    intro other notThrough
    have notPrefix : ¬above ++ [index] <+: path other :=
      fun through => notThrough (mapped.through_iff.mp through)
    rw [memoryType, memoryType, mapped.mapping_writeWord_of_ne tables stops notPrefix]
  translations := mapped.translate_writeWord tables isPresent stops sameFrame

theorem frame_div (entry : Entry) :
    entry.frame / 2 ^ 9 = (entry.extractLsb' 21 31).toNat := by
  rw [Entry.frame, BitVec.extractLsb'_toNat, BitVec.extractLsb'_toNat, Nat.shiftRight_eq_div_pow,
    Nat.shiftRight_eq_div_pow]
  omega

theorem applyMt_small (entry : Entry) (mt : BitVec 8) :
    (pteditApplyMt entry mt).present = entry.present ∧
      (pteditApplyMt entry mt).frame = entry.frame := by
  have bits : ∀ i, (applyMtAt 7 entry mt).getLsbD i = _ :=
    getLsbD_applyMtAt (by decide) (by decide) entry mt
  constructor
  · rw [Entry.present, pteditApplyMt, pteditPageBitPat, bits]
    rfl
  · have same : (pteditApplyMt entry mt).extractLsb' 12 40 = entry.extractLsb' 12 40 := by
      apply BitVec.eq_of_getLsbD_eq
      intro i bound
      rw [BitVec.getLsbD_extractLsb', BitVec.getLsbD_extractLsb', pteditApplyMt, pteditPageBitPat,
        bits, if_neg (by omega), if_neg (by omega), if_neg (by omega)]
    rw [Entry.frame, same, Entry.frame]

theorem applyMt_huge (entry : Entry) (mt : BitVec 8) :
    (pteditApplyMtHuge entry mt).present = entry.present ∧
      (pteditApplyMtHuge entry mt).size = entry.size ∧
      (pteditApplyMtHuge entry mt).frame / 2 ^ 9 = entry.frame / 2 ^ 9 := by
  have bits : ∀ i, (applyMtAt 12 entry mt).getLsbD i = _ :=
    getLsbD_applyMtAt (by decide) (by decide) entry mt
  refine ⟨?_, ?_, ?_⟩
  · rw [Entry.present, pteditApplyMtHuge, pteditPageBitPatLarge, bits]
    rfl
  · rw [Entry.size, pteditApplyMtHuge, pteditPageBitPatLarge, bits]
    rfl
  · have same : (pteditApplyMtHuge entry mt).extractLsb' 21 31 = entry.extractLsb' 21 31 := by
      apply BitVec.eq_of_getLsbD_eq
      intro i bound
      rw [BitVec.getLsbD_extractLsb', BitVec.getLsbD_extractLsb', pteditApplyMtHuge,
        pteditPageBitPatLarge, bits, if_neg (by omega), if_neg (by omega), if_neg (by omega)]
    rw [frame_div, same, ← frame_div]

theorem hardwareChild_eq_none_iff {level : ℕ} {entry : Entry} (isPresent : entry.present = true) :
    hardwareChild level entry = none ↔ level ≠ 0 ∧ entry.size = true := by
  simp [hardwareChild, isPresent]

section Retype

variable {mts : BitVec 64} {type : BitVec 8} {entry : Entry}

theorem retype_small (tables : Tables mem root)
    (mapped : mapping mem root address = some (3, entry))
    (available : pteditFindFirstMt mts type ≠ -1) :
    ∃ mem', retypePage (ownRoot root) mem mts address type = some mem' ∧
      Retyped mts type 3 mem mem' root address ∧
      pteditUpdate (ownRoot root) mem' address 0
        (smallRecord (pteditResolve (ownRoot root) mem address 0) entry) = mem := by
  rcases exists_mappedAt mapped with ⟨above, index, table, mappedAt, isSmall, rfl⟩
  rcases mappedAt.resolve_small tables isSmall with ⟨pte_eq, update_eq⟩
  have applied := applyMt_small (slots mem table index)
    (BitVec.ofInt 8 (pteditFindFirstMt mts type))
  have isType := typeAt_of_found available
  rw [← patIndex_applyMtAt (by decide : 4 < 7) (by decide) (slots mem table index),
    ← pteditPageBitPat, ← pteditApplyMt] at isType
  have retyped_eq : retypePage (ownRoot root) mem mts address type =
      some (mem.writeWord (entryAddress table index) (pteditApplyMt (slots mem table index)
        (BitVec.ofInt 8 (pteditFindFirstMt mts type)))) := by
    rw [retypePage, if_pos available, update_eq _ rfl, pte_eq]
    rfl
  generalize pteditApplyMt (slots mem table index) _ = word at *
  have isPresent : word.present = true := applied.1.trans mappedAt.isPresent
  have stops : above.length + 1 < 4 → hardwareChild above.length word = none := by omega
  have after := mappedAt.writeWord tables isPresent stops
  have tables' := mappedAt.tables_writeWord tables stops
  refine ⟨_, retyped_eq, ?_, ?_⟩
  · rw [← isSmall]
    apply mappedAt.retyped tables isPresent stops
    · intro other
      rw [isSmall, mappedFrame, mappedFrame, applied.2]
      all_goals simp
    · rw [if_pos isSmall]
      exact isType
  · rw [(after.resolve_small tables' isSmall).2 _ rfl, Bytes.writeWord_writeWord]
    exact Bytes.writeWord_readWord

theorem retype_huge (tables : Tables mem root)
    (mapped : mapping mem root address = some (2, entry))
    (available : pteditFindFirstMt mts type ≠ -1) :
    ∃ mem', retypeHugePage (ownRoot root) mem mts address type = some mem' ∧
      Retyped mts type 2 mem mem' root address ∧
      pteditUpdate (ownRoot root) mem' address 0
        (hugeRecord (pteditResolve (ownRoot root) mem address 0) entry) = mem := by
  rcases exists_mappedAt mapped with ⟨above, index, table, mappedAt, isLarge, rfl⟩
  rcases mappedAt.resolve_large tables isLarge with ⟨pmd_eq, update_eq⟩
  have applied := applyMt_huge (slots mem table index)
    (BitVec.ofInt 8 (pteditFindFirstMt mts type))
  have isType := typeAt_of_found available
  rw [← patIndex_applyMtAt (by decide : 4 < 12) (by decide) (slots mem table index),
    ← pteditPageBitPatLarge, ← pteditApplyMtHuge] at isType
  have retyped_eq : retypeHugePage (ownRoot root) mem mts address type =
      some (mem.writeWord (entryAddress table index) (pteditApplyMtHuge (slots mem table index)
        (BitVec.ofInt 8 (pteditFindFirstMt mts type)))) := by
    rw [retypeHugePage, if_pos available, update_eq _ rfl, pmd_eq]
    rfl
  generalize pteditApplyMtHuge (slots mem table index) _ = word at *
  have isPresent : word.present = true := applied.1.trans mappedAt.isPresent
  have stops : above.length + 1 < 4 → hardwareChild above.length word = none := by
    intro isUpper
    have isLeaf := mappedAt.stops isUpper
    rw [hardwareChild_eq_none_iff mappedAt.isPresent] at isLeaf
    rw [hardwareChild_eq_none_iff isPresent, applied.2.1]
    exact isLeaf
  have after := mappedAt.writeWord tables isPresent stops
  have tables' := mappedAt.tables_writeWord tables stops
  refine ⟨_, retyped_eq, ?_, ?_⟩
  · rw [← isLarge]
    apply mappedAt.retyped tables isPresent stops
    · intro other
      rw [isLarge, mappedFrame, mappedFrame, applied.2.2]
    · rw [if_neg (by omega)]
      exact isType
  · rw [(after.resolve_large tables' isLarge).2 _ rfl, Bytes.writeWord_writeWord]
    exact Bytes.writeWord_readWord

/-- The demo gives a mapped page of 4 KiB or 2 MiB the wanted type, which the processor then
finds for exactly the addresses of this page; it changes no translation, and an update with the
entry of before restores the whole memory. -/
theorem retype_changes_one_page (tables : Tables mem root) {level : ℕ}
    (mapped : mapping mem root address = some (level, entry))
    (available : pteditFindFirstMt mts type ≠ -1) :
    (level = 3 → ∃ mem', retypePage (ownRoot root) mem mts address type = some mem' ∧
      Retyped mts type level mem mem' root address ∧
      pteditUpdate (ownRoot root) mem' address 0
        (smallRecord (pteditResolve (ownRoot root) mem address 0) entry) = mem) ∧
    (level = 2 → ∃ mem', retypeHugePage (ownRoot root) mem mts address type = some mem' ∧
      Retyped mts type level mem mem' root address ∧
      pteditUpdate (ownRoot root) mem' address 0
        (hugeRecord (pteditResolve (ownRoot root) mem address 0) entry) = mem) := by
  constructor
  · rintro rfl
    exact retype_small tables mapped available
  · rintro rfl
    exact retype_huge tables mapped available

end Retype

/-- The table of types after a reset of the processor. -/
def patOfReset : BitVec 64 := 0x0007040600070406

/-- The second page of the chain becomes uncachable, type `0`; the third one stays write-back. -/
theorem retype_on_chain :
    ∃ mem', retypePage (ownRoot 1) chainMemory patOfReset 0x1000 0 = some mem' ∧
      memoryType patOfReset chainMemory 1 0x1000 = some 6 ∧
      memoryType patOfReset mem' 1 0x1000 = some 0 ∧
      memoryType patOfReset mem' 1 0x2000 = memoryType patOfReset chainMemory 1 0x2000 := by
  have mapped : mapping chainMemory 1 0x1000 = some (3, 0x9007) := by decide +kernel
  have available : pteditFindFirstMt patOfReset 0 ≠ -1 := by decide
  rcases (retype_changes_one_page chain_walked.tables mapped available).1 rfl with
    ⟨mem', isRetyped, retyped, -⟩
  exact ⟨mem', isRetyped, by decide +kernel, retyped.type_eq _ rfl,
    retyped.others _ (by decide)⟩

/-! ## Changes of the table -/

theorem getLsbD_setMt_mask {mt : ℕ} (bound : mt < 4) {i : ℕ} (isBit : i < 64) :
    ((~~~(7#32 <<< (mt * 8))).signExtend 64).getLsbD i =
      decide (i < mt * 8 ∨ mt * 8 + 3 ≤ i) := by
  have all : ∀ mt : Fin 4, ∀ i : Fin 64,
      ((~~~(7#32 <<< (mt.val * 8))).signExtend 64).getLsbD i =
        decide (i.val < mt.val * 8 ∨ mt.val * 8 + 3 ≤ i.val) := by
    decide
  exact all ⟨mt, bound⟩ ⟨i, isBit⟩

theorem getLsbD_editMts {mts mts' : BitVec 64} {mt : ℕ} {value : BitVec 8}
    (isSet : editMts mts mt value = some mts') {i : ℕ} (isBit : i < 64) :
    mts'.getLsbD i =
      ((mts.getLsbD i && decide (i < mt * 8 ∨ mt * 8 + 3 ≤ i)) ||
        (decide (mt * 8 ≤ i) && value.getLsbD (i - mt * 8))) := by
  unfold editMts at isSet
  split_ifs at isSet with isDefined
  rw [Option.some.injEq] at isSet
  rw [← isSet, BitVec.getLsbD_or, BitVec.getLsbD_and, getLsbD_setMt_mask (by omega) isBit,
    BitVec.getLsbD_shiftLeft, BitVec.getLsbD_setWidth]
  congr 1
  by_cases isBelow : i < mt * 8
  · simp [isBelow]
  · simp [isBelow, isBit, show i - mt * 8 < 64 by omega, show mt * 8 ≤ i by omega]

theorem ValidPat.getLsbD_eq_false {pat : BitVec 64} (valid : ValidPat pat) {i : ℕ}
    (isBit : i < 64) (isUpper : 3 ≤ i % 8) : pat.getLsbD i = false := by
  have known := valid (i / 8) (by omega)
  simp only [isType, decide_eq_true_eq] at known
  have small : (pat.extractLsb' (8 * (i / 8)) 8).toNat < 2 ^ (i % 8) :=
    Nat.lt_of_lt_of_le known.1 (Nat.pow_le_pow_right (show 2 > 0 by decide) isUpper)
  have isClear := Nat.testBit_lt_two_pow small
  have place : 8 * (i / 8) + i % 8 = i := by omega
  rw [BitVec.testBit_toNat, BitVec.getLsbD_extractLsb', place, decide_eq_true (by omega),
    Bool.true_and] at isClear
  exact isClear

/-- The register is read as it is, since its types leave the sign of the lower half clear. -/
theorem getPat_of_valid {pat : BitVec 64} (valid : ValidPat pat) : getPat pat = pat := by
  have sign : (pat.extractLsb' 0 32).msb = false := by
    rw [BitVec.msb_eq_getLsbD_last, BitVec.getLsbD_extractLsb',
      valid.getLsbD_eq_false (by decide) (by decide), Bool.and_false]
  apply BitVec.eq_of_getLsbD_eq
  intro i isBit
  simp only [getPat, BitVec.getLsbD_or, BitVec.getLsbD_signExtend, sign, BitVec.getLsbD_shiftLeft,
    BitVec.getLsbD_extractLsb', isBit, decide_true, Bool.true_and]
  by_cases isLow : i < 32
  · simp [isLow]
  · simp [isLow, show i - 32 < 32 by omega, show i - 32 < 64 by omega,
      show 32 + (i - 32) = i by omega]

/-- The edit replaces one byte of a table in which no byte has more than three bits. -/
theorem byte_editMts {mts mts' : BitVec 64} {mt other : ℕ} {value : BitVec 8}
    (valid : ValidPat mts) (isSet : editMts mts mt value = some mts') (bound : other < 8) :
    mts'.extractLsb' (8 * other) 8 =
      if other = mt then value else mts.extractLsb' (8 * other) 8 := by
  apply BitVec.eq_of_getLsbD_eq
  intro i isBit
  rw [BitVec.getLsbD_extractLsb', getLsbD_editMts isSet (by omega), decide_eq_true isBit,
    Bool.true_and]
  split_ifs with isSame
  · subst isSame
    have offset : 8 * other + i - other * 8 = i := by omega
    rw [offset, decide_eq_true (show other * 8 ≤ 8 * other + i by omega), Bool.true_and]
    by_cases isUpper : 3 ≤ i
    · rw [valid.getLsbD_eq_false (by omega) (by omega), Bool.false_and, Bool.false_or]
    · simp [show ¬(8 * other + i < other * 8 ∨ other * 8 + 3 ≤ 8 * other + i) by omega]
  · have kept : 8 * other + i < mt * 8 ∨ mt * 8 + 3 ≤ 8 * other + i := by omega
    have noValue : (decide (mt * 8 ≤ 8 * other + i) &&
        value.getLsbD (8 * other + i - mt * 8)) = false := by
      by_cases isBelow : mt * 8 ≤ 8 * other + i
      · rw [BitVec.getLsbD_of_ge value _ (by omega), Bool.and_false]
      · rw [decide_eq_false isBelow, Bool.false_and]
    rw [decide_eq_true kept, noValue, Bool.and_true, Bool.or_false, BitVec.getLsbD_extractLsb',
      decide_eq_true isBit, Bool.true_and]

theorem valid_editMts_iff {mts mts' : BitVec 64} {mt : ℕ} {value : BitVec 8}
    (valid : ValidPat mts) (isSet : editMts mts mt value = some mts') (bound : mt < 8) :
    ValidPat mts' ↔ isType value = true := by
  constructor
  · intro valid'
    have known := valid' mt bound
    rwa [byte_editMts valid isSet bound, if_pos rfl] at known
  · intro known i isByte
    rw [byte_editMts valid isSet isByte]
    split_ifs
    · exact known
    · exact valid i isByte

/-- A call is carried out exactly if it names one of the lower four types and gives it a type that
the processor knows, and it changes this type alone. -/
theorem pteditSetMt_eq_some_iff {pat pat' : BitVec 64} {mt : ℕ} {value : BitVec 8}
    (valid : ValidPat pat) :
    pteditSetMt pat mt value = some pat' ↔
      mt < 4 ∧ isType value = true ∧ editMts pat mt value = some pat' := by
  rw [pteditSetMt, getPat_of_valid valid, Option.bind_eq_some_iff]
  constructor
  · rintro ⟨mts, isSet, isWritten⟩
    have isLow : mt < 4 := by
      unfold editMts at isSet
      split_ifs at isSet
      omega
    unfold setPat at isWritten
    split_ifs at isWritten with valid'
    rw [Option.some.injEq] at isWritten
    rw [← isWritten]
    exact ⟨isLow, (valid_editMts_iff valid isSet (by omega)).mp valid', isSet⟩
  · rintro ⟨isLow, known, isSet⟩
    refine ⟨pat', isSet, ?_⟩
    rw [setPat, if_pos ((valid_editMts_iff valid isSet (by omega)).mpr known)]

theorem editMts_of_low {mts : BitVec 64} {mt : ℕ} (value : BitVec 8) (isLow : mt < 4) :
    ∃ mts', editMts mts mt value = some mts' :=
  ⟨_, if_pos (by omega)⟩

theorem toNat_pteditGetMt_of_valid {pat : BitVec 64} (valid : ValidPat pat) {mt : ℕ}
    (bound : mt < 8) :
    (pteditGetMt (getPat pat) mt).toNat = (pat.extractLsb' (8 * mt) 8).toNat := by
  have known := valid mt bound
  simp only [isType, decide_eq_true_eq, BitVec.extractLsb'_toNat] at known
  rw [getPat_of_valid valid, toNat_pteditGetMt, typeAt, BitVec.extractLsb'_toNat,
    BitVec.extractLsb'_toNat]
  omega

/-- Calls of `ptedit_set_mt` one after the other. -/
def setMts (pat : BitVec 64) (calls : List (ℕ × BitVec 8)) : Option (BitVec 64) :=
  calls.foldlM (fun pat call => pteditSetMt pat call.1 call.2) pat

theorem setMts_append (pat : BitVec 64) (calls : List (ℕ × BitVec 8)) (call : ℕ × BitVec 8) :
    setMts pat (calls ++ [call]) =
      (setMts pat calls).bind (fun pat => pteditSetMt pat call.1 call.2) := by
  simp [setMts, List.foldlM_append]

/-- The last value that the calls give a type. -/
def lastValue (calls : List (ℕ × BitVec 8)) (mt : ℕ) : Option (BitVec 8) :=
  (calls.reverse.find? (fun call => call.1 = mt)).map Prod.snd

theorem lastValue_append (calls : List (ℕ × BitVec 8)) (call : ℕ × BitVec 8) (mt : ℕ) :
    lastValue (calls ++ [call]) mt = if call.1 = mt then some call.2 else lastValue calls mt := by
  simp only [lastValue, List.reverse_append, List.reverse_singleton, List.singleton_append,
    List.find?_cons]
  split_ifs with isSame <;> simp [isSame]

/-- The register after calls that are carried out. -/
theorem bytes_after_calls {pat pat' : BitVec 64} {calls : List (ℕ × BitVec 8)}
    (valid : ValidPat pat) (isSet : setMts pat calls = some pat') :
    ValidPat pat' ∧ (∀ call ∈ calls, call.1 < 4 ∧ isType call.2 = true) ∧
      ∀ mt < 8, pat'.extractLsb' (8 * mt) 8 =
        (lastValue calls mt).getD (pat.extractLsb' (8 * mt) 8) := by
  induction calls using List.reverseRecOn generalizing pat' with
  | nil =>
      rw [setMts, List.foldlM_nil, Option.pure_def, Option.some.injEq] at isSet
      subst pat'
      exact ⟨valid, by simp, fun _ _ => rfl⟩
  | append_singleton calls call ih =>
      rw [setMts_append, Option.bind_eq_some_iff] at isSet
      rcases isSet with ⟨between, isBetween, isLast⟩
      rcases ih isBetween with ⟨validBetween, all, bytes⟩
      rcases (pteditSetMt_eq_some_iff validBetween).mp isLast with ⟨isLow, known, isEdit⟩
      refine ⟨(valid_editMts_iff validBetween isEdit (by omega)).mpr known, ?_, ?_⟩
      · intro other isCall
        rcases List.mem_append.mp isCall with isOld | isNew
        · exact all other isOld
        · rw [List.mem_singleton.mp isNew]
          exact ⟨isLow, known⟩
      · intro mt bound
        rw [byte_editMts validBetween isEdit bound, lastValue_append]
        by_cases isSame : call.1 = mt
        · rw [if_pos isSame.symm, if_pos isSame, Option.getD_some]
        · rw [if_neg (Ne.symm isSame), if_neg isSame, bytes mt bound]

theorem setMts_of_known {pat : BitVec 64} {calls : List (ℕ × BitVec 8)} (valid : ValidPat pat)
    (all : ∀ call ∈ calls, call.1 < 4 ∧ isType call.2 = true) :
    ∃ pat', setMts pat calls = some pat' := by
  induction calls using List.reverseRecOn with
  | nil => exact ⟨pat, rfl⟩
  | append_singleton calls call ih =>
      rcases ih (fun other isCall => all other (List.mem_append_left _ isCall)) with
        ⟨between, isBetween⟩
      rcases all call (by simp) with ⟨isLow, known⟩
      have validBetween := (bytes_after_calls valid isBetween).1
      rcases editMts_of_low call.2 isLow with ⟨pat', isEdit⟩
      refine ⟨pat', ?_⟩
      rw [setMts_append, isBetween, Option.bind_some]
      exact (pteditSetMt_eq_some_iff validBetween).mpr ⟨isLow, known, isEdit⟩

/-- From every value of the register, any sequence of calls is carried out exactly if it names the
lower four types only and gives them types that the processor knows, and then each type is the last
one that it was given. -/
theorem types_after_calls (pat : BitVec 64) (valid : ValidPat pat)
    (calls : List (ℕ × BitVec 8)) :
    ((setMts pat calls).isSome ↔ ∀ call ∈ calls, call.1 < 4 ∧ isType call.2 = true) ∧
      ∀ pat', setMts pat calls = some pat' → ∀ mt < 8,
        (pteditGetMt (getPat pat') mt).toNat =
          ((lastValue calls mt).map BitVec.toNat).getD (pteditGetMt (getPat pat) mt).toNat := by
  constructor
  · rw [Option.isSome_iff_exists]
    exact ⟨fun ⟨_, isSet⟩ => (bytes_after_calls valid isSet).2.1, setMts_of_known valid⟩
  · intro pat' isSet mt bound
    rcases bytes_after_calls valid isSet with ⟨valid', -, bytes⟩
    rw [toNat_pteditGetMt_of_valid valid' bound, toNat_pteditGetMt_of_valid valid bound,
      bytes mt bound]
    cases lastValue calls mt <;> rfl

/-- The third type becomes write-combining and then uncachable, the first one write-through. -/
theorem types_after_reset :
    ValidPat patOfReset ∧
      ∃ pat', setMts patOfReset [(2, 1), (0, 4), (2, 0)] = some pat' ∧
        (pteditGetMt (getPat pat') 2).toNat = 0 ∧ (pteditGetMt (getPat pat') 0).toNat = 4 ∧
        (pteditGetMt (getPat pat') 4).toNat = 6 := by
  have valid : ValidPat patOfReset := by decide
  rcases types_after_calls patOfReset valid [(2, 1), (0, 4), (2, 0)] with ⟨carriedOut, types⟩
  rcases Option.isSome_iff_exists.mp (carriedOut.mpr (by decide)) with ⟨pat', isSet⟩
  exact ⟨valid, pat', isSet, types pat' isSet 2 (by decide), types pat' isSet 0 (by decide),
    types pat' isSet 4 (by decide)⟩

end UserLevelMmap.PageTable
