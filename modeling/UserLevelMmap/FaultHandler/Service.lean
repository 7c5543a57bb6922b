import UserLevelMmap.FaultHandler.Environment
import UserLevelMmap.PageTable.Walked

/-!
# The effect of one fault service

One iteration of the handler fills `given_page` and edits one entry of the page
table. This file says what the page tables are after it, as `ptedit_resolve` shows
them, for every address: the fill writes to no table, since no table is in a frame
behind the buffer, and the edited entry is on the walk of the addresses of one page.

The latter may fail. `ptedit_resolve` takes a page of 1 GiB for a table, and its data
for entries; a page table in the first frame of such a page is on two walks.
-/

namespace UserLevelMmap.FaultHandler

open PageTable RadixTree

variable {mem mem' : Bytes} {root : ℕ}

/-! ## The range of the wake -/

/-- `struct uffdio_range`. -/
structure UffdioRange where
  start : BitVec 64
  len : BitVec 64

/-- The range of `UFFDIO_WAKE`: `address & ~(PAGE_SIZE - 1)` and `PAGE_SIZE`. -/
def uffdioRange (address : BitVec 64) : UffdioRange where
  start := address &&& ~~~(BitVec.ofNat 64 pageSize - 1)
  len := BitVec.ofNat 64 pageSize

theorem getLsbD_pageMask (i : ℕ) :
    (BitVec.ofNat 64 pageSize - 1).getLsbD i = decide (i < 12) := by
  by_cases bound : i < 64
  · have bits : ∀ j : Fin 64,
        (BitVec.ofNat 64 pageSize - 1).getLsbD j = decide ((j : ℕ) < 12) := by
      decide
    exact bits ⟨i, bound⟩
  · rw [BitVec.getLsbD_of_ge _ _ (by omega)]
    symm
    apply decide_eq_false
    omega

theorem toNat_uffdioRange_start (address : BitVec 64) :
    (uffdioRange address).start.toNat = address.toNat / pageSize * pageSize := by
  have shifted : (uffdioRange address).start = address >>> 12 <<< 12 := by
    apply BitVec.eq_of_getLsbD_eq
    intro i bound
    simp only [uffdioRange, BitVec.getLsbD_and, BitVec.getLsbD_not, getLsbD_pageMask,
      BitVec.getLsbD_shiftLeft, BitVec.getLsbD_ushiftRight, bound, decide_true, Bool.true_and]
    by_cases low : i < 12
    · simp [low]
    · simp [low, show 12 + (i - 12) = i by omega]
  have bound := address.isLt
  rw [shifted, BitVec.toNat_shiftLeft, BitVec.toNat_ushiftRight, Nat.shiftRight_eq_div_pow,
    Nat.shiftLeft_eq, pageSize]
  omega

theorem event_wake {Id : Type} [DecidableEq Id] (setup : Setup Id) (id : Id)
    {process : Process Id} {address : BitVec 64} (msg_eq : process.msg = address.toNat) :
    event setup id process (.wake id) =
      some (.wakes (uffdioRange address).start.toNat (uffdioRange address).len.toNat) := by
  have len_eq : (uffdioRange address).len.toNat = pageSize := rfl
  rw [toNat_uffdioRange_start, len_eq, ← msg_eq]
  simp only [event, if_true]

/-! ## The fill -/

theorem slots_storeByte {address frame : ℕ} {byte : BitVec 8}
    (elsewhere : translate mem root address ≠ some frame) (index : Fin 512) :
    slots (storeByte mem root address byte) frame index = slots mem frame index := by
  unfold storeByte physical
  cases mapped : translate mem root address with
  | none => rfl
  | some backing =>
      simp only [Option.map_some]
      apply HeapLayout.slots_update
      intro same
      apply elsewhere
      rw [mapped, ← same]
      simp only [pageSize, Option.some.injEq]
      omega

theorem HeapLayout.slots_storeBytes {Id : Type} {setup : Setup Id} {heapFrame : ℕ → ℕ}
    (layout : HeapLayout setup heapFrame mem) {address frame : ℕ} {bytes : List (BitVec 8)}
    (onHeap : ∀ place, address ≤ place → place < address + bytes.length →
      setup.isHeap (place / pageSize) = true)
    (elsewhere : ∀ page, setup.isHeap page = true → heapFrame page ≠ frame) (index : Fin 512) :
    slots (FaultHandler.storeBytes setup.root mem address bytes) frame index =
      slots mem frame index := by
  induction bytes generalizing mem address with
  | nil => rfl
  | cons byte rest ih =>
      rw [List.length_cons] at onHeap
      have isHeap := onHeap address (Nat.le_refl _) (by omega)
      have mapped := layout.translate_heap isHeap
      rw [FaultHandler.storeBytes, ih (layout.storeByte isHeap mapped byte).1]
      · apply slots_storeByte
        rw [mapped, ne_eq, Option.some.injEq]
        exact elsewhere _ isHeap
      · intro place low high
        exact onHeap place (by omega) (by omega)

/-- Stores through pages that no table of the library is behind change no such table. -/
theorem slots_storeBytes (tables : Tables mem root) {address : ℕ} {bytes : List (BitVec 8)}
    (apart : ∀ place, address ≤ place → place < address + bytes.length →
      ∀ frame, translate mem root place = some frame → ¬IsRead mem root frame)
    {frame : ℕ} (isRead : IsRead mem root frame) (index : Fin 512) :
    slots (storeBytes root mem address bytes) frame index = slots mem frame index := by
  induction bytes generalizing mem address with
  | nil => rfl
  | cons byte rest ih =>
      rw [List.length_cons] at apart
      have keptFirst : ∀ {table : ℕ}, IsRead mem root table → ∀ index,
          slots (storeByte mem root address byte) table index = slots mem table index := by
        intro table isTable index
        apply slots_storeByte
        intro mapped
        exact apart address (Nat.le_refl _) (by omega) table mapped isTable
      rcases tables.congr_of_read keptFirst with ⟨tablesFirst, sameRead, _, sameFrame, _⟩
      rw [storeBytes, ih tablesFirst ?_ ((sameRead frame).mpr isRead)]
      · exact keptFirst isRead index
      · intro place low high table mapped isTable
        rw [sameFrame] at mapped
        exact apart place (by omega) (by omega) table mapped ((sameRead table).mp isTable)

/-! ## The edit -/

theorem getLsbD_installedEntry_pteditGetPfn (old given : Entry) {i : ℕ} (bound : i < 64) :
    (installedEntry old (pteditGetPfn given)).getLsbD i =
      if i < 3 then true
      else if 12 ≤ i ∧ i < 52 then given.getLsbD i
      else old.getLsbD i := by
  simp only [getLsbD_installedEntry, pteditSetPfn, pteditGetPfn, BitVec.getLsbD_or,
    BitVec.getLsbD_and, BitVec.getLsbD_not, BitVec.getLsbD_shiftLeft, BitVec.getLsbD_ushiftRight,
    getLsbD_pfnMask, bound, decide_true, Bool.true_and]
  by_cases low : i < 3
  · simp [low]
  · by_cases inFrame : 12 ≤ i
    · have same : 12 + (i - 12) = i := by omega
      by_cases below : i < 52
      · simp [low, inFrame, below, same, show ¬i < 12 by omega]
      · simp [low, inFrame, below, same]
    · simp [low, inFrame, show i < 12 by omega]

/-- The entry is present, writable and open to the user, with the frame of the other one. -/
def Installed (pte given : Entry) : Prop :=
  (∀ i < 3, pte.getLsbD i = true) ∧ ∀ i, 12 ≤ i → i < 52 → pte.getLsbD i = given.getLsbD i

theorem installedEntry_eq_iff (old given : Entry) :
    installedEntry old (pteditGetPfn given) = old ↔ Installed old given := by
  constructor
  · intro same
    have bits : ∀ {i : ℕ}, i < 64 → old.getLsbD i =
        if i < 3 then true else if 12 ≤ i ∧ i < 52 then given.getLsbD i else old.getLsbD i := by
      intro i bound
      rw [← getLsbD_installedEntry_pteditGetPfn old given bound, same]
    refine ⟨fun i low => ?_, fun i low high => ?_⟩
    · rw [bits (by omega), if_pos low]
    · rw [bits (by omega), if_neg (by omega), if_pos ⟨low, high⟩]
  · rintro ⟨flags, frame⟩
    apply BitVec.eq_of_getLsbD_eq
    intro i bound
    rw [getLsbD_installedEntry_pteditGetPfn old given bound]
    split_ifs with isFlag inFrame
    · exact (flags i isFlag).symm
    · exact (frame i inFrame.1 inFrame.2).symm
    · rfl

/-- For page tables that are a tree in the mapped window, a buffer with no table of the library
behind it, and walks for the fault address and for `given_page` that both reach a last entry, one
iteration writes one word of the page tables: the old entry with the frame of `given_page` and with
`PRESENT`, `RW` and `USER` set. The range of the wake is the page of the fault address. The walks
for this page return the new entry and the walks for all other pages return what they returned
before, exactly if no other walk reads the written word or it was written before. -/
theorem iteration_effect_iff (tables : Tables mem root) {region : Region}
    {address : BitVec 64} {givenPage faultCnt table givenTable : ℕ}
    (apart : ∀ place, givenPage ≤ place → place < givenPage + pageSize →
      ∀ frame, translate mem root place = some frame → ¬IsRead mem root frame)
    (found : pteditTable mem root address.toNat = some table)
    (foundGiven : pteditTable mem root givenPage = some givenTable)
    (iterated : iteration root region faultCnt address.toNat givenPage mem = some mem') :
    ∃ (bytes : List (BitVec 8)) (entry : Entry),
      region.fillBytes faultCnt address.toNat = some bytes ∧
      (∀ frame, IsRead mem root frame → ∀ index,
        slots (storeBytes root mem givenPage bytes) frame index = slots mem frame index) ∧
      mem' = (storeBytes root mem givenPage bytes).writeWord
        (entryAddress table (leafIndex address.toNat)) entry ∧
      (∀ i < 64, entry.getLsbD i =
        if i < 3 then true
        else if 12 ≤ i ∧ i < 52 then (slots mem givenTable (leafIndex givenPage)).getLsbD i
        else (slots mem table (leafIndex address.toNat)).getLsbD i) ∧
      (∀ other, pageOf other = pageOf address.toNat →
        (pteditResolve (ownRoot root) mem other 0).pte =
          slots mem table (leafIndex address.toNat)) ∧
      (∀ place, (uffdioRange address).start.toNat ≤ place ∧
          place < (uffdioRange address).start.toNat + (uffdioRange address).len.toNat ↔
        place / pageSize = address.toNat / pageSize) ∧
      (((∀ other, pageOf other = pageOf address.toNat →
          pteditResolve (ownRoot root) mem' other 0 =
            { pteditResolve (ownRoot root) mem other 0 with pte := entry }) ∧
        ∀ other, pageOf other ≠ pageOf address.toNat →
          pteditResolve (ownRoot root) mem' other 0 = pteditResolve (ownRoot root) mem other 0) ↔
        Installed (slots mem table (leafIndex address.toNat))
            (slots mem givenTable (leafIndex givenPage)) ∨
          Unshared mem root address.toNat table) := by
  rw [iteration, Option.map_eq_some_iff] at iterated
  rcases iterated with ⟨bytes, filled, rfl⟩
  have length_eq := Region.fillBytes_length filled
  have kept : ∀ {frame : ℕ}, IsRead mem root frame → ∀ index,
      slots (storeBytes root mem givenPage bytes) frame index = slots mem frame index := by
    apply slots_storeBytes tables
    rw [length_eq]
    exact apart
  rcases tables.congr_of_read kept with ⟨_, _, sameTable, _, sameResolve⟩
  have pfn_eq : pteditPteGetPfn (ownRoot root) (storeBytes root mem givenPage bytes) givenPage 0 =
      pteditGetPfn (slots mem givenTable (leafIndex givenPage)) := by
    rw [pteditPteGetPfn_eq tables.root_pos, pteditTable, sameTable (by simp [directory]),
      ← pteditTable, foundGiven]
    simp only [kept (isRead_of_pteditTable foundGiven)]
  have foundFilled : pteditTable (storeBytes root mem givenPage bytes) root address.toNat =
      some table := by
    rw [pteditTable, sameTable (by simp [directory]), ← pteditTable, found]
  have installed : install root (storeBytes root mem givenPage bytes) address.toNat givenPage =
      (storeBytes root mem givenPage bytes).writeWord
        (entryAddress table (leafIndex address.toNat))
        (installedEntry (slots mem table (leafIndex address.toNat))
          (pteditGetPfn (slots mem givenTable (leafIndex givenPage)))) := by
    rw [install_eq tables.root_pos, foundFilled, pfn_eq]
    simp only [kept (isRead_of_pteditTable found)]
  have pte_eq : ∀ other, pageOf other = pageOf address.toNat →
      (pteditResolve (ownRoot root) mem other 0).pte =
        slots mem table (leafIndex address.toNat) := by
    intro other samePage
    rw [← leafIndex_of_samePage samePage]
    apply (pteditResolve_of_table tables.root_pos _).2.2
    rw [pteditTable_of_samePage samePage, found]
  refine ⟨bytes, _, filled, fun frame => kept, installed, ?_, pte_eq, ?_, ?_⟩
  · intro i bound
    exact getLsbD_installedEntry_pteditGetPfn _ _ bound
  · intro place
    have len_eq : (uffdioRange address).len.toNat = pageSize := rfl
    rw [toNat_uffdioRange_start, len_eq]
    simp only [pageSize]
    omega
  · have shown := pteditResolve_writeWord_iff tables.root_pos foundFilled
      (present_installedEntry (slots mem table (leafIndex address.toNat))
        (pteditGetPfn (slots mem givenTable (leafIndex givenPage))))
    simp only [sameResolve, kept (isRead_of_pteditTable found), installedEntry_eq_iff,
      Unshared.congr sameTable] at shown
    rw [installed]
    exact shown

/-- No table is behind a buffer on the heap when there are no pages of 1 GiB. -/
theorem HeapLayout.buffer_apart {Id : Type} {setup : Setup Id} {heapFrame : ℕ → ℕ}
    (layout : HeapLayout setup heapFrame mem) (noHugePages : NoHugePages mem setup.root)
    {blocks : List ℕ} {givenPage : ℕ} (mallocs : setup.Mallocs blocks givenPage) (place : ℕ)
    (low : givenPage ≤ place) (high : place < givenPage + pageSize) (frame : ℕ)
    (mapped : translate mem setup.root place = some frame) : ¬IsRead mem setup.root frame := by
  have isHeap := HeapLayout.block_onHeap mallocs low high
  rw [layout.translate_heap isHeap, Option.some.injEq] at mapped
  intro isRead
  apply layout.heapApart isHeap
  rw [mapped]
  have walked := layout.tables.walked noHugePages
  exact (walked.isWalked_of_isRead isRead).isTable noHugePages

theorem sample_noHugePages : NoHugePages sampleMemory 1 := by
  intro path table isFirst found index isPresent
  rcases sample_tableAt (by omega) found with ⟨path_eq, low, high⟩
  have isSecond : table = 2 := by
    have lengths := congrArg List.length path_eq
    rw [List.length_replicate] at lengths
    omega
  subst table
  rw [sampleMemory, slots_ofEntries] at isPresent ⊢
  by_cases isZero : index.val = 0
  · simp only [sampleEntries, isZero]
    decide
  · have empty : sampleEntries 2 index = 0#64 := by simp [sampleEntries, isZero]
    rw [empty]
    decide

theorem iteration_effect_on_sample :
    ∃ (mem' : Bytes) (entry : Entry),
      iteration 1 (sampleRegion none 0) 0 0x100234 0x10010 sampleMemory = some mem' ∧
      (∀ other, pageOf other = 0x100 →
        (pteditResolve (ownRoot 1) mem' other 0).pte = entry) ∧
      ∀ other, pageOf other ≠ 0x100 →
        pteditResolve (ownRoot 1) mem' other 0 =
          pteditResolve (ownRoot 1) sampleMemory other 0 := by
  have layout : HeapLayout (sampleSetup (fun _ : Unit => none) (fun _ => 0))
    (fun page => page + 16) sampleMemory := sample_environment.toHeapLayout
  have walked := sample_tables.walked sample_noHugePages
  have mallocs : (sampleSetup (fun _ : Unit => none) (fun _ => 0)).Mallocs [] 0x10010 := by decide
  have found : pteditTable sampleMemory 1 (0x100234#64).toNat = some 4 :=
    sample_tables.pteditTable_of_hardwareTable (sample_hardwareTable (by decide))
  have foundGiven : pteditTable sampleMemory 1 0x10010 = some 4 :=
    sample_tables.pteditTable_of_hardwareTable (sample_hardwareTable (by decide))
  rcases iteration_effect_iff sample_tables (layout.buffer_apart sample_noHugePages mallocs) found
    foundGiven (rfl : iteration 1 (sampleRegion none 0) 0 _ _ _ = _) with
    ⟨bytes, entry, _, _, _, _, _, _, shown⟩
  rcases shown.mpr (Or.inr (walked.unshared found)) with ⟨samePage, otherPage⟩
  refine ⟨_, entry, rfl, ?_, otherPage⟩
  intro other isPage
  exact congrArg PteditEntry.pte (samePage other isPage)

/-! ## A page of 1 GiB over a table -/

/-- Page tables in the frames `1`, `2`, `3` and `0x40000`: the pages `16` to `23` are mapped to the
frames `32` to `39`, and the other pages below `512` have an empty last entry. In the upper half,
the first entry of the table in frame `5` maps the page of 1 GiB that begins with frame
`0x40000`. -/
def hugeEntries (frame : ℕ) (index : Fin 512) : Entry :=
  if frame = 1 ∧ index.val = 0 then 0x2007#64
  else if frame = 1 ∧ index.val = 256 then 0x5007#64
  else if frame = 2 ∧ index.val = 0 then 0x3007#64
  else if frame = 3 ∧ index.val = 0 then 0x40000007#64
  else if frame = 5 ∧ index.val = 0 then 0x40000083#64
  else if frame = 0x40000 ∧ 16 ≤ index.val ∧ index.val < 24 then
    BitVec.ofNat 64 ((index.val + 16) * 4096 + 7)
  else 0#64

def hugeMemory : Bytes :=
  ofEntries hugeEntries

theorem slots_huge : slots hugeMemory = hugeEntries :=
  slots_ofEntries hugeEntries

/-- Where the entries of the upper three levels point. -/
theorem huge_child {level table frame : ℕ} {index : Fin 512} (isTable : table ≠ 0x40000)
    (child : hardwareChild level (hugeEntries table index) = some frame) :
    (table = 1 ∧ index.val = 0 ∧ frame = 2) ∨ (table = 1 ∧ index.val = 256 ∧ frame = 5) ∨
      (table = 2 ∧ index.val = 0 ∧ frame = 3) ∨ (table = 3 ∧ index.val = 0 ∧ frame = 0x40000) ∨
      (table = 5 ∧ level = 0) := by
  rcases hardwareChild_eq_some child with ⟨isPresent, notLarge, rfl⟩
  unfold hugeEntries at *
  split_ifs at * with first upper second third huge last
  · exact Or.inl ⟨first.1, first.2, by decide⟩
  · exact Or.inr (Or.inl ⟨upper.1, upper.2, by decide⟩)
  · exact Or.inr (Or.inr (Or.inl ⟨second.1, second.2, by decide⟩))
  · exact Or.inr (Or.inr (Or.inr (Or.inl ⟨third.1, third.2, by decide⟩)))
  · refine Or.inr (Or.inr (Or.inr (Or.inr ⟨huge.1, ?_⟩)))
    by_contra notTop
    exact absurd (notLarge notTop) (by decide)
  · exact absurd last.1 isTable
  · exact absurd isPresent (by decide)

/-- Every table has its own path, by its frame. -/
def hugePath (frame : ℕ) : List ℕ :=
  if frame = 2 then [0]
  else if frame = 5 then [256]
  else if frame = 3 then [0, 0]
  else if frame = 0x40000 then [0, 0, 0]
  else []

theorem huge_tableAt {path : List (Fin 512)} {frame : ℕ} (short : path.length < 4)
    (found : tableAt (slots hugeMemory) hardwareChild 0 1 path = some frame) :
    path.map Fin.val = hugePath frame ∧
      (frame = 1 ∨ frame = 2 ∨ frame = 3 ∨ frame = 5 ∨ frame = 0x40000) := by
  induction path using List.reverseRecOn generalizing frame with
  | nil =>
      simp only [tableAt, Option.some.injEq] at found
      subst frame
      exact ⟨rfl, Or.inl rfl⟩
  | append_singleton path index ih =>
      rw [List.length_append, List.length_singleton] at short
      rw [tableAt_append, Option.bind_eq_some_iff, slots_huge] at found
      rcases found with ⟨table, foundTable, child⟩
      rw [← slots_huge] at foundTable
      have isPath := (ih (by omega) foundTable).1
      have isUpper : table ≠ 0x40000 := by
        rintro rfl
        have lengths := congrArg List.length isPath
        rw [List.length_map] at lengths
        simp only [hugePath] at lengths
        norm_num at lengths
        omega
      rw [List.map_append, isPath, List.map_singleton]
      rcases huge_child isUpper child with
        ⟨rfl, isIndex, rfl⟩ | ⟨rfl, isIndex, rfl⟩ | ⟨rfl, isIndex, rfl⟩ | ⟨rfl, isIndex, rfl⟩ |
        ⟨rfl, isTop⟩
      · simp [hugePath, isIndex]
      · simp [hugePath, isIndex]
      · simp [hugePath, isIndex]
      · simp [hugePath, isIndex]
      · rw [Nat.zero_add, List.length_eq_zero_iff] at isTop
        simp [isTop, hugePath] at isPath

theorem huge_tables : Tables hugeMemory 1 where
  tree := by
    intro path other frame short shortOther found foundOther
    have same := (huge_tableAt short found).1.trans (huge_tableAt shortOther foundOther).1.symm
    exact List.map_injective_iff.mpr (fun _ _ => Fin.ext) same
  root_pos := by decide
  window := by
    rintro frame ⟨path, short, found⟩
    have isFrame := (huge_tableAt short found).2
    omega

theorem huge_hardwareTable {address : ℕ} (low : address < 0x200000) :
    hardwareTable hugeMemory 1 address = some 0x40000 := by
  have first : (Fin.ofNat 512 (address / 2 ^ 39) : Fin 512).val = 0 := by
    rw [Fin.val_ofNat]
    omega
  have second : (Fin.ofNat 512 (address / 2 ^ 30) : Fin 512).val = 0 := by
    rw [Fin.val_ofNat]
    omega
  have third : (Fin.ofNat 512 (address / 2 ^ 21) : Fin 512).val = 0 := by
    rw [Fin.val_ofNat]
    omega
  have pgd : slots hugeMemory 1 (Fin.ofNat 512 (address / 2 ^ 39)) = 0x2007#64 := by
    simp only [slots_huge, hugeEntries, first]
    decide
  have pud : slots hugeMemory 2 (Fin.ofNat 512 (address / 2 ^ 30)) = 0x3007#64 := by
    simp only [slots_huge, hugeEntries, second]
    decide
  have pmd : slots hugeMemory 3 (Fin.ofNat 512 (address / 2 ^ 21)) = 0x40000007#64 := by
    simp only [slots_huge, hugeEntries, third]
    decide
  exact hardwareTable_of_present pgd (by decide) pud (by decide) (by decide) pmd (by decide)
    (by decide)

theorem huge_layout :
    HeapLayout (sampleSetup (fun _ : Unit => none) (fun _ => 0)) (fun page => page + 16)
      hugeMemory where
  tables := huge_tables
  heapSlot := by
    intro page isHeap
    simp only [sampleSetup, Bool.and_eq_true, decide_eq_true_eq] at isHeap
    exact ⟨0x40000, huge_hardwareTable (by simp only [pageSize]; omega)⟩
  heapMapped := by
    intro page isHeap
    simp only [sampleSetup, Bool.and_eq_true, decide_eq_true_eq] at isHeap ⊢
    rcases isHeap with ⟨low, high⟩
    interval_cases page <;> decide +kernel
  heapDistinct := by
    intro page other _ _ sameFrame
    omega
  heapApart := by
    rintro page isHeap ⟨path, short, found⟩
    have isFrame := (huge_tableAt short found).2
    simp only [sampleSetup, Bool.and_eq_true, decide_eq_true_eq] at isHeap
    omega
  heapInRange := by
    intro page isHeap
    simp only [sampleSetup, Bool.and_eq_true, decide_eq_true_eq] at isHeap
    omega
  regionApart := sample_environment.regionApart

/-- The iteration with a fault at `0x100234` and `given_page` at `0x10010` writes one entry. -/
theorem huge_iteration {mem' : Bytes}
    (iterated : iteration 1 (sampleRegion none 0) 0 0x100234 0x10010 hugeMemory = some mem') :
    slots mem' 1 (Fin.ofNat 512 256) = 0x5007#64 ∧
      slots mem' 5 (Fin.ofNat 512 0) = 0x40000083#64 ∧
      slots mem' 0x40000 (Fin.ofNat 512 256) = 0x20007#64 := by
  rw [iteration, Option.map_eq_some_iff] at iterated
  rcases iterated with ⟨bytes, filled, rfl⟩
  have mallocs : (sampleSetup (fun _ : Unit => none) (fun _ => 0)).Mallocs [] 0x10010 := by decide
  have onHeap := HeapLayout.fill_onHeap mallocs filled
  have kept : ∀ {frame : ℕ} (index : Fin 512), frame < 32 ∨ 40 ≤ frame →
      slots (storeBytes 1 hugeMemory 0x10010 bytes) frame index = hugeEntries frame index := by
    intro frame index elsewhere
    rw [← slots_huge]
    refine huge_layout.slots_storeBytes onHeap ?_ index
    intro page isHeap
    simp only [sampleSetup, Bool.and_eq_true, decide_eq_true_eq] at isHeap
    omega
  rcases huge_layout.storeBytes onHeap with ⟨layout, sameTable, _⟩
  have tables : Tables (storeBytes 1 hugeMemory 0x10010 bytes) 1 := layout.tables
  have found : hardwareTable (storeBytes 1 hugeMemory 0x10010 bytes) 1 0x100234 = some 0x40000 :=
    (sameTable 0x100234).trans (huge_hardwareTable (by decide))
  have pfn_eq : pteditPteGetPfn (ownRoot 1) (storeBytes 1 hugeMemory 0x10010 bytes) 0x10010 0 =
      32#64 :=
    BitVec.eq_of_toNat_eq (layout.pfn_heap mallocs.2.1)
  have leaf : leafIndex 0x100234 = Fin.ofNat 512 256 := rfl
  rw [install_eq (by decide), tables.pteditTable_of_hardwareTable found, pfn_eq, leaf]
  dsimp only
  rw [kept _ (by decide), slots_writeWord_of_ne (by decide), slots_writeWord_of_ne (by decide),
    slots_writeWord_self, kept _ (by decide), kept _ (by decide)]
  decide

/-- The library takes the page of 1 GiB for a table, so that the last entry of the fault address is
an entry of the third level for an address of the upper half, and `ptedit_resolve` of this address
returns something else after the iteration. -/
theorem resolve_of_other_page_changes :
    HeapLayout (sampleSetup (fun _ : Unit => none) (fun _ => 0)) (fun page => page + 16)
        hugeMemory ∧
      (sampleSetup (fun _ : Unit => none) (fun _ => 0)).Mallocs [] 0x10010 ∧
      pteditTable hugeMemory 1 0x100234 = some 0x40000 ∧
      pteditTable hugeMemory 1 0x10010 = some 0x40000 ∧
      pageOf 0xffff800020000000 ≠ pageOf 0x100234 ∧
      ∃ mem', iteration 1 (sampleRegion none 0) 0 0x100234 0x10010 hugeMemory = some mem' ∧
        (pteditResolve (ownRoot 1) hugeMemory 0xffff800020000000 0).pmd = 0#64 ∧
        (pteditResolve (ownRoot 1) mem' 0xffff800020000000 0).pmd = 0x20007#64 := by
  have found := huge_hardwareTable (show 0x100234 < 0x200000 by decide)
  have foundGiven := huge_hardwareTable (show 0x10010 < 0x200000 by decide)
  have returns : ∃ mem', iteration 1 (sampleRegion none 0) 0 0x100234 0x10010 hugeMemory =
      some mem' := by
    rw [iteration, Region.fillBytes]
    exact ⟨_, rfl⟩
  rcases returns with ⟨mem', iterated⟩
  refine ⟨huge_layout, by decide, huge_tables.pteditTable_of_hardwareTable found,
    huge_tables.pteditTable_of_hardwareTable foundGiven, by decide, mem', iterated,
    by decide +kernel, ?_⟩
  rcases huge_iteration iterated with ⟨pgd, pud, pmd⟩
  have isPgd : (Fin.ofNat 512 (0xffff800020000000 / 2 ^ 39) : Fin 512) = Fin.ofNat 512 256 := rfl
  have isPud : (Fin.ofNat 512 (0xffff800020000000 / 2 ^ 30) : Fin 512) = Fin.ofNat 512 0 := rfl
  have isPmd : (Fin.ofNat 512 (0xffff800020000000 / 2 ^ 21) : Fin 512) = Fin.ofNat 512 256 := rfl
  have pgdPfn : Entry.pfn 0x5007#64 = 5 := by decide
  have pudPfn : Entry.pfn 0x40000083#64 = 0x40000 := by decide
  rw [pteditResolve_eq (by decide), isPgd, isPud, isPmd, pgd]
  dsimp only
  rw [pgdPfn, pud, pudPfn, pmd]
  rfl

end UserLevelMmap.FaultHandler
