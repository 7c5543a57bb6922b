import Mathlib.Tactic.IntervalCases
import UserLevelMmap.FaultHandler.Wake

/-!
# The memory of the process

`HeapLayout` is what one iteration of the handler relies on beside a last entry for the
page of its fault address: page tables that are a tree, and a heap of 4 KiB pages in
distinct frames apart from the tables. `Environment` adds a last entry for every page of
a region. No step of the process breaks it: stores through heap pages and through
installed region pages reach frames of the heap, and an update of the page table
reaches the entry of a region page.
-/

namespace UserLevelMmap.FaultHandler

open PageTable RadixTree

variable {Id : Type} {setup : Setup Id} {heapFrame : ℕ → ℕ} {mem mem' : Bytes}

/-- The page tables and the heap in memory; `heapFrame` is the frame behind each page of the
heap. -/
structure HeapLayout (setup : Setup Id) (heapFrame : ℕ → ℕ) (mem : Bytes) : Prop where
  tables : Tables mem setup.root
  heapSlot : ∀ {page : ℕ}, setup.isHeap page = true →
    ∃ table, hardwareTable mem setup.root (page * pageSize) = some table
  heapMapped : ∀ {page : ℕ}, setup.isHeap page = true →
    translate mem setup.root (page * pageSize) = some (heapFrame page)
  heapDistinct : ∀ {page other : ℕ}, setup.isHeap page = true → setup.isHeap other = true →
    heapFrame page = heapFrame other → page = other
  heapApart : ∀ {page : ℕ}, setup.isHeap page = true →
    ¬IsTable mem setup.root (heapFrame page)
  heapInRange : ∀ {page : ℕ}, setup.isHeap page = true → page < 2 ^ 35
  regionApart : ∀ {id : Id} {address : ℕ}, (setup.region id).Contains address →
    setup.isHeap (address / pageSize) = false

/-- The page tables, the heap and the regions in memory. -/
structure Environment (setup : Setup Id) (heapFrame : ℕ → ℕ) (mem : Bytes) : Prop extends
    HeapLayout setup heapFrame mem where
  regionSlot : ∀ {id : Id} {address : ℕ}, (setup.region id).Contains address →
    ∃ table, hardwareTable mem setup.root address = some table

theorem pageOf_eq_div {address : ℕ} (low : address < 2 ^ 47) :
    pageOf address = address / pageSize := by
  simp only [pageOf, pageSize]
  omega

theorem Region.Contains.pageOf_eq {region : Region} {address : ℕ}
    (contains : region.Contains address) : pageOf address = address / pageSize :=
  pageOf_eq_div (Nat.lt_of_lt_of_le contains.2 region.inUserSpace)

theorem hardwareTable_of_samePage {root address other : ℕ}
    (samePage : pageOf address = pageOf other) :
    hardwareTable mem root address = hardwareTable mem root other := by
  have sameDirectory := (List.append_inj (path_eq_iff.mpr samePage) rfl).1
  rw [hardwareTable, hardwareTable, sameDirectory]

namespace HeapLayout

theorem heapPageOf (layout : HeapLayout setup heapFrame mem) {address : ℕ}
    (isHeap : setup.isHeap (address / pageSize) = true) :
    pageOf address = pageOf (address / pageSize * pageSize) := by
  have inRange := layout.heapInRange isHeap
  simp only [pageOf, pageSize] at *
  omega

theorem translate_heap (layout : HeapLayout setup heapFrame mem) {address : ℕ}
    (isHeap : setup.isHeap (address / pageSize) = true) :
    translate mem setup.root address = some (heapFrame (address / pageSize)) := by
  rw [translate_of_samePage (layout.heapPageOf isHeap)]
  exact layout.heapMapped isHeap

theorem pfn_heap (layout : HeapLayout setup heapFrame mem) {givenPage : ℕ}
    (isHeap : setup.isHeap (givenPage / pageSize) = true) :
    (pteditPteGetPfn (ownRoot setup.root) mem givenPage 0).toNat =
      heapFrame (givenPage / pageSize) := by
  rcases layout.heapSlot isHeap with ⟨table, found⟩
  rw [← hardwareTable_of_samePage (layout.heapPageOf isHeap)] at found
  have mapped := layout.translate_heap isHeap
  rw [translate_of_hardwareTable found] at mapped
  split_ifs at mapped
  rw [Option.some.injEq] at mapped
  rw [pfn_of_small layout.tables found, mapped]

theorem heapFrame_lt (layout : HeapLayout setup heapFrame mem) {page : ℕ}
    (isHeap : setup.isHeap page = true) : heapFrame page < 2 ^ 40 := by
  rcases layout.heapSlot isHeap with ⟨table, found⟩
  have mapped := layout.heapMapped isHeap
  rw [translate_of_hardwareTable found] at mapped
  split_ifs at mapped
  rw [Option.some.injEq] at mapped
  rw [← mapped]
  exact Entry.frame_lt _

theorem congr (layout : HeapLayout setup heapFrame mem)
    (agree : ∀ {frame : ℕ}, IsTable mem setup.root frame →
      ∀ index, slots mem' frame index = slots mem frame index) :
    HeapLayout setup heapFrame mem' ∧
      (∀ address, hardwareTable mem' setup.root address = hardwareTable mem setup.root address) ∧
      ∀ address, translate mem' setup.root address = translate mem setup.root address := by
  rcases layout.tables.congr agree with ⟨tables, sameTable, sameFrame⟩
  refine ⟨?_, sameTable, sameFrame⟩
  exact
    { tables := tables
      heapSlot := fun isHeap => by rw [sameTable]; exact layout.heapSlot isHeap
      heapMapped := fun isHeap => by rw [sameFrame]; exact layout.heapMapped isHeap
      heapDistinct := layout.heapDistinct
      heapApart := by
        rintro page isHeap ⟨path, short, found⟩
        refine layout.heapApart isHeap ⟨path, short, ?_⟩
        rw [← found]
        exact (tableAt_congr (fun isShort foundTable => agree ⟨_, isShort, foundTable⟩)
          (Nat.le_of_lt short)).symm
      heapInRange := layout.heapInRange
      regionApart := layout.regionApart }

theorem slots_update {place frame : ℕ} {byte : BitVec 8} {index : Fin 512}
    (elsewhere : place / pageSize ≠ frame) :
    slots (Function.update mem place byte) frame index = slots mem frame index := by
  apply Bytes.readWord_congr
  intro other low high
  have bound := index.isLt
  have distinct : other ≠ place := by
    rintro rfl
    simp only [entryAddress, pteditPfnMultiply, pteditEntrySize, pageSize] at *
    omega
  exact Function.update_of_ne distinct _ _

theorem storeByte (layout : HeapLayout setup heapFrame mem) {address page : ℕ}
    (isHeap : setup.isHeap page = true)
    (mapped : translate mem setup.root address = some (heapFrame page)) (byte : BitVec 8) :
    HeapLayout setup heapFrame (storeByte mem setup.root address byte) ∧
      (∀ other,
        hardwareTable (FaultHandler.storeByte mem setup.root address byte) setup.root other =
          hardwareTable mem setup.root other) ∧
      ∀ other, translate (FaultHandler.storeByte mem setup.root address byte) setup.root other =
        translate mem setup.root other := by
  have place_eq : physical mem setup.root address =
      some (heapFrame page * pageSize + address % pageSize) := by
    rw [physical, mapped, Option.map_some]
  rw [FaultHandler.storeByte, place_eq]
  apply layout.congr
  intro frame isTable index
  apply slots_update
  rintro rfl
  apply layout.heapApart isHeap
  have sameFrame : (heapFrame page * pageSize + address % pageSize) / pageSize =
      heapFrame page := by
    simp only [pageSize]
    omega
  rwa [sameFrame] at isTable

theorem storeBytes (layout : HeapLayout setup heapFrame mem) {address : ℕ}
    {bytes : List (BitVec 8)}
    (onHeap : ∀ place, address ≤ place → place < address + bytes.length →
      setup.isHeap (place / pageSize) = true) :
    HeapLayout setup heapFrame (storeBytes setup.root mem address bytes) ∧
      (∀ other, hardwareTable (FaultHandler.storeBytes setup.root mem address bytes) setup.root
        other = hardwareTable mem setup.root other) ∧
      ∀ other, translate (FaultHandler.storeBytes setup.root mem address bytes) setup.root other =
        translate mem setup.root other := by
  induction bytes generalizing mem address with
  | nil => exact ⟨layout, fun _ => rfl, fun _ => rfl⟩
  | cons byte rest ih =>
      rw [List.length_cons] at onHeap
      have isHeap := onHeap address (Nat.le_refl _) (by omega)
      rcases layout.storeByte isHeap (layout.translate_heap isHeap) byte with
        ⟨layoutFirst, sameTable, sameFirst⟩
      have restOnHeap : ∀ place, address + 1 ≤ place → place < address + 1 + rest.length →
          setup.isHeap (place / pageSize) = true :=
        fun place low high => onHeap place (by omega) (by omega)
      rcases ih layoutFirst restOnHeap with ⟨layoutRest, sameTableRest, sameRest⟩
      exact ⟨layoutRest, fun other => (sameTableRest other).trans (sameTable other),
        fun other => (sameRest other).trans (sameFirst other)⟩

theorem block_onHeap {blocks : List ℕ} {givenPage : ℕ}
    (mallocs : setup.Mallocs blocks givenPage) {place : ℕ} (low : givenPage ≤ place)
    (high : place < givenPage + pageSize) : setup.isHeap (place / pageSize) = true := by
  rcases mallocs with ⟨_, firstHeap, lastHeap, _⟩
  have onTwoPages : place / pageSize = givenPage / pageSize ∨
      place / pageSize = (givenPage + (pageSize - 1)) / pageSize := by
    simp only [pageSize] at *
    omega
  rcases onTwoPages with onFirst | onLast
  · rwa [onFirst]
  · rwa [onLast]

theorem fill_onHeap {blocks : List ℕ} {region : Region} {faultCnt address givenPage : ℕ}
    {bytes : List (BitVec 8)} (mallocs : setup.Mallocs blocks givenPage)
    (filled : region.fillBytes faultCnt address = some bytes) (place : ℕ)
    (low : givenPage ≤ place) (high : place < givenPage + bytes.length) :
    setup.isHeap (place / pageSize) = true := by
  rw [Region.fillBytes_length filled] at high
  exact block_onHeap mallocs low high

theorem heapByte_writeWord (layout : HeapLayout setup heapFrame mem)
    {page table offset : ℕ} {index : Fin 512} {word : BitVec 64}
    (isHeap : setup.isHeap page = true) (isTable : IsTable mem setup.root table)
    (inPage : offset < pageSize) :
    mem.writeWord (entryAddress table index) word (heapFrame page * pageSize + offset) =
      mem (heapFrame page * pageSize + offset) := by
  have elsewhere : heapFrame page ≠ table := by
    rintro rfl
    exact layout.heapApart isHeap isTable
  have bound := index.isLt
  apply Bytes.writeWord_of_outside
  simp only [entryAddress, pteditPfnMultiply, pteditEntrySize, pageSize] at *
  omega

theorem writeEntry (layout : HeapLayout setup heapFrame mem) {id : Id} {address table : ℕ}
    (contains : (setup.region id).Contains address)
    (found : hardwareTable mem setup.root address = some table) (word : BitVec 64) :
    HeapLayout setup heapFrame
      (mem.writeWord (entryAddress table (leafIndex address)) word) := by
  have tables := layout.tables
  have sameTable : ∀ other, hardwareTable
      (mem.writeWord (entryAddress table (leafIndex address)) word) setup.root other =
        hardwareTable mem setup.root other :=
    tables.hardwareTable_writeWord found
  exact
    { tables := tables.writeWord found
      heapSlot := fun isHeap => by rw [sameTable]; exact layout.heapSlot isHeap
      heapMapped := by
        intro page isHeap
        have otherPage : pageOf (page * pageSize) ≠ pageOf address := by
          rw [contains.pageOf_eq]
          intro samePage
          have notHeap := layout.regionApart contains
          have inRange := layout.heapInRange isHeap
          have isPage : address / pageSize = page := by
            rw [← samePage]
            simp only [pageOf, pageSize]
            omega
          rw [isPage, isHeap] at notHeap
          contradiction
        rw [tables.translate_writeWord_of_ne found otherPage]
        exact layout.heapMapped isHeap
      heapDistinct := layout.heapDistinct
      heapApart := by
        rintro page isHeap ⟨path, short, foundPath⟩
        rw [tables.tableAt_writeWord found short] at foundPath
        exact layout.heapApart isHeap ⟨path, short, foundPath⟩
      heapInRange := layout.heapInRange
      regionApart := layout.regionApart }

end HeapLayout

namespace Environment

theorem storeByte (environment : Environment setup heapFrame mem) {address page : ℕ}
    (isHeap : setup.isHeap page = true)
    (mapped : translate mem setup.root address = some (heapFrame page)) (byte : BitVec 8) :
    Environment setup heapFrame (storeByte mem setup.root address byte) ∧
      ∀ other, translate (FaultHandler.storeByte mem setup.root address byte) setup.root other =
        translate mem setup.root other := by
  rcases environment.toHeapLayout.storeByte isHeap mapped byte with ⟨layout, sameTable, sameFrame⟩
  refine ⟨⟨layout, ?_⟩, sameFrame⟩
  intro id other contains
  rw [sameTable]
  exact environment.regionSlot contains

theorem storeBytes (environment : Environment setup heapFrame mem) {address : ℕ}
    {bytes : List (BitVec 8)}
    (onHeap : ∀ place, address ≤ place → place < address + bytes.length →
      setup.isHeap (place / pageSize) = true) :
    Environment setup heapFrame (storeBytes setup.root mem address bytes) ∧
      ∀ other, translate (FaultHandler.storeBytes setup.root mem address bytes) setup.root other =
        translate mem setup.root other := by
  rcases environment.toHeapLayout.storeBytes onHeap with ⟨layout, sameTable, sameFrame⟩
  refine ⟨⟨layout, ?_⟩, sameFrame⟩
  intro id other contains
  rw [sameTable]
  exact environment.regionSlot contains

theorem writeEntry (environment : Environment setup heapFrame mem) {id : Id} {address table : ℕ}
    (contains : (setup.region id).Contains address)
    (found : hardwareTable mem setup.root address = some table) (word : BitVec 64) :
    Environment setup heapFrame
      (mem.writeWord (entryAddress table (leafIndex address)) word) := by
  refine ⟨environment.toHeapLayout.writeEntry contains found word, ?_⟩
  intro id other containsOther
  rw [environment.tables.hardwareTable_writeWord found]
  exact environment.regionSlot containsOther

end Environment

/-! ## Regions over the sample tables -/

/-- A region of four pages in the second half of the first 2 MiB. -/
def sampleRegion (fd : Option (List (BitVec 8))) (number : Fin 64) : Region where
  fd := fd
  offset := 0
  baseAddr := 0x100000 + number * 0x4000
  length := 0x4000
  offset_aligned := rfl
  base_aligned := by
    simp only [pageSize]
    omega
  length_aligned := rfl
  offset_fits := by decide
  inUserSpace := by
    have bound := number.isLt
    omega

def sampleSetup (fd : Id → Option (List (BitVec 8))) (number : Id → Fin 64) : Setup Id where
  root := 1
  region id := sampleRegion (fd id) (number id)
  isHeap page := 16 ≤ page && page < 24

variable {fd : Id → Option (List (BitVec 8))} {number : Id → Fin 64}

theorem sampleRegion_bounds {file : Option (List (BitVec 8))} {region : Fin 64} {address : ℕ}
    (contains : (sampleRegion file region).Contains address) :
    0x100000 ≤ address ∧ address < 0x200000 := by
  have bound := region.isLt
  simp only [Region.Contains, sampleRegion] at contains
  omega

theorem sample_hardwareTable {address : ℕ} (low : address < 0x200000) :
    hardwareTable sampleMemory 1 address = some 4 := by
  have first : (Fin.ofNat 512 (address / 2 ^ 39) : Fin 512) = 0 := by
    simp only [Fin.ext_iff, Fin.val_ofNat, Fin.val_zero]
    omega
  have second : (Fin.ofNat 512 (address / 2 ^ 30) : Fin 512) = 0 := by
    simp only [Fin.ext_iff, Fin.val_ofNat, Fin.val_zero]
    omega
  have third : (Fin.ofNat 512 (address / 2 ^ 21) : Fin 512) = 0 := by
    simp only [Fin.ext_iff, Fin.val_ofNat, Fin.val_zero]
    omega
  have pgd : slots sampleMemory 1 (Fin.ofNat 512 (address / 2 ^ 39)) = 0x2007#64 := by
    rw [first, sampleMemory, slots_ofEntries]
    decide
  have pud : slots sampleMemory 2 (Fin.ofNat 512 (address / 2 ^ 30)) = 0x3007#64 := by
    rw [second, sampleMemory, slots_ofEntries]
    decide
  have pmd : slots sampleMemory 3 (Fin.ofNat 512 (address / 2 ^ 21)) = 0x4007#64 := by
    rw [third, sampleMemory, slots_ofEntries]
    decide
  exact hardwareTable_of_present pgd (by decide) pud (by decide) (by decide) pmd (by decide)
    (by decide)

theorem sample_missing {address : ℕ} (low : 0x100000 ≤ address) (high : address < 0x200000) :
    translate sampleMemory 1 address = none := by
  have notHeap : ¬(leafIndex address).val < 24 := by
    simp only [leafIndex, Fin.val_ofNat]
    omega
  have empty : sampleEntries 4 (leafIndex address) = 0#64 := by
    simp [sampleEntries, notHeap]
  rw [translate_of_hardwareTable (sample_hardwareTable high), sampleMemory, slots_ofEntries, empty]
  decide

theorem sample_environment :
    Environment (sampleSetup fd number) (fun page => page + 16) sampleMemory where
  tables := sample_tables
  heapSlot := by
    intro page isHeap
    simp only [sampleSetup, Bool.and_eq_true, decide_eq_true_eq] at isHeap
    exact ⟨4, sample_hardwareTable (by simp only [pageSize]; omega)⟩
  heapMapped := by
    intro page isHeap
    simp only [sampleSetup, Bool.and_eq_true, decide_eq_true_eq] at isHeap ⊢
    rcases isHeap with ⟨low, high⟩
    interval_cases page <;> decide +kernel
  heapDistinct := by
    intro page other _ _ sameFrame
    omega
  heapApart := by
    rintro page isHeap ⟨path, short, found⟩
    have bound := (sample_tableAt short found).2.2
    simp only [sampleSetup, Bool.and_eq_true, decide_eq_true_eq] at isHeap
    omega
  heapInRange := by
    intro page isHeap
    simp only [sampleSetup, Bool.and_eq_true, decide_eq_true_eq] at isHeap
    omega
  regionApart := by
    intro id address contains
    have bounds := sampleRegion_bounds contains
    simp only [sampleSetup, Bool.and_eq_false_iff, decide_eq_false_iff_not, pageSize]
    omega
  regionSlot := fun contains => ⟨4, sample_hardwareTable (sampleRegion_bounds contains).2⟩

end UserLevelMmap.FaultHandler
