import UserLevelMmap.FaultHandler.Environment

/-!
# The content of a faulted-in page

Three address computations stand between the file and the page that the application
reads. `pread` takes the fault address as it is, the frame lookup drops the offset of
`given_page` inside its page, and the wake rounds the fault address down. The page that
is read therefore begins with what the heap page held before `given_page`, and goes on
with file bytes that are shifted by the offset of the fault address in its page.
-/

namespace UserLevelMmap.FaultHandler

open PageTable RadixTree

variable {Id : Type} {setup : Setup Id} {heapFrame : ℕ → ℕ} {mem mem' : Bytes}

theorem loadByte_congr {root address other : ℕ}
    (sameFrame : translate mem root address = translate mem root other)
    (sameOffset : address % pageSize = other % pageSize) :
    loadByte mem root address = loadByte mem root other := by
  rw [loadByte, loadByte, physical, physical, sameFrame, sameOffset]

namespace HeapLayout

theorem loadByte_storeByte (layout : HeapLayout setup heapFrame mem)
    {address other page frame : ℕ} (isHeap : setup.isHeap page = true)
    (mapped : translate mem setup.root address = some (heapFrame page))
    (mappedOther : translate mem setup.root other = some frame) (byte : BitVec 8) :
    loadByte (FaultHandler.storeByte mem setup.root address byte) setup.root other =
      if frame * pageSize + other % pageSize = heapFrame page * pageSize + address % pageSize then
        some byte
      else loadByte mem setup.root other := by
  have sameFrame := (layout.storeByte isHeap mapped byte).2.2 other
  rw [loadByte, loadByte, physical, physical, sameFrame, mappedOther, Option.map_some,
    Option.map_some, Option.map_some, FaultHandler.storeByte, physical, mapped, Option.map_some]
  split_ifs with samePlace
  · rw [samePlace]
    exact congrArg some (Function.update_self _ _ _)
  · exact congrArg some (Function.update_of_ne samePlace _ _)

theorem heapPlace_eq_iff (layout : HeapLayout setup heapFrame mem) {address other : ℕ}
    (isHeap : setup.isHeap (address / pageSize) = true)
    (isHeapOther : setup.isHeap (other / pageSize) = true) :
    heapFrame (other / pageSize) * pageSize + other % pageSize =
      heapFrame (address / pageSize) * pageSize + address % pageSize ↔ other = address := by
  constructor
  · intro samePlace
    have sameFrame : heapFrame (other / pageSize) = heapFrame (address / pageSize) := by
      simp only [pageSize] at samePlace ⊢
      omega
    have samePage := layout.heapDistinct isHeapOther isHeap sameFrame
    rw [sameFrame] at samePlace
    simp only [pageSize] at samePlace samePage
    omega
  · rintro rfl
    rfl

theorem loadByte_storeBytes (layout : HeapLayout setup heapFrame mem) {address place : ℕ}
    {bytes : List (BitVec 8)}
    (onHeap : ∀ place, address ≤ place → place < address + bytes.length →
      setup.isHeap (place / pageSize) = true)
    (isHeap : setup.isHeap (place / pageSize) = true) :
    loadByte (FaultHandler.storeBytes setup.root mem address bytes) setup.root place =
      if address ≤ place ∧ place < address + bytes.length then bytes[place - address]?
      else loadByte mem setup.root place := by
  induction bytes generalizing mem address with
  | nil =>
      rw [if_neg (by simp only [List.length_nil]; omega)]
      rfl
  | cons byte rest ih =>
      rw [List.length_cons] at onHeap ⊢
      have isHeapFirst := onHeap address (Nat.le_refl _) (by omega)
      have mappedFirst := layout.translate_heap isHeapFirst
      have layoutFirst := (layout.storeByte isHeapFirst mappedFirst byte).1
      have restOnHeap : ∀ place, address + 1 ≤ place → place < address + 1 + rest.length →
          setup.isHeap (place / pageSize) = true :=
        fun place low high => onHeap place (by omega) (by omega)
      rw [FaultHandler.storeBytes, ih layoutFirst restOnHeap,
        layout.loadByte_storeByte isHeapFirst mappedFirst (layout.translate_heap isHeap)]
      simp only [layout.heapPlace_eq_iff isHeapFirst isHeap]
      by_cases isFirst : place = address
      · subst place
        rw [if_neg (by omega), if_pos rfl, if_pos (by omega), Nat.sub_self, List.getElem?_cons_zero]
      · by_cases inRest : address + 1 ≤ place ∧ place < address + 1 + rest.length
        · have offset : place - address = place - (address + 1) + 1 := by omega
          rw [if_pos inRest, if_pos (by omega), offset, List.getElem?_cons_succ]
        · rw [if_neg inRest, if_neg isFirst, if_neg (by omega)]

theorem loadByte_writeEntry (layout : HeapLayout setup heapFrame mem)
    {address table other page : ℕ} {word : BitVec 64}
    (found : hardwareTable mem setup.root address = some table)
    (otherPage : pageOf other ≠ pageOf address) (isHeap : setup.isHeap page = true)
    (mapped : translate mem setup.root other = some (heapFrame page)) :
    loadByte (mem.writeWord (entryAddress table (leafIndex address)) word) setup.root other =
      loadByte mem setup.root other := by
  have isTable : IsTable mem setup.root table := ⟨_, by simp [directory], found⟩
  rw [loadByte, loadByte, physical, physical,
    layout.tables.translate_writeWord_of_ne found otherPage, mapped, Option.map_some,
    Option.map_some, Option.map_some,
    layout.heapByte_writeWord isHeap isTable (Nat.mod_lt _ (by decide))]

theorem install (layout : HeapLayout setup heapFrame mem) {id : Id} {address givenPage table : ℕ}
    (contains : (setup.region id).Contains address)
    (found : hardwareTable mem setup.root address = some table)
    (isHeap : setup.isHeap (givenPage / pageSize) = true) :
    HeapLayout setup heapFrame (install setup.root mem address givenPage) ∧
      (∀ other, hardwareTable (FaultHandler.install setup.root mem address givenPage) setup.root
        other = hardwareTable mem setup.root other) ∧
      translate (FaultHandler.install setup.root mem address givenPage) setup.root address =
        some (heapFrame (givenPage / pageSize)) ∧
      ∀ other, pageOf other ≠ pageOf address →
        translate (FaultHandler.install setup.root mem address givenPage) setup.root other =
          translate mem setup.root other := by
  have tables := layout.tables
  refine ⟨?_, ?_, ?_, fun other otherPage => translate_install_of_ne tables found otherPage⟩
  · rw [install_eq tables.root_pos, tables.pteditTable_of_hardwareTable found]
    exact layout.writeEntry contains found _
  · rw [install_eq tables.root_pos, tables.pteditTable_of_hardwareTable found]
    exact tables.hardwareTable_writeWord found
  · rw [translate_install tables found, layout.pfn_heap isHeap]

theorem loadByte_install (layout : HeapLayout setup heapFrame mem) {id : Id}
    {address givenPage position table : ℕ} (contains : (setup.region id).Contains address)
    (found : hardwareTable mem setup.root address = some table)
    (isHeap : setup.isHeap (givenPage / pageSize) = true) (inPage : position < pageSize) :
    loadByte (FaultHandler.install setup.root mem address givenPage) setup.root
        (address / pageSize * pageSize + position) =
      loadByte mem setup.root (givenPage / pageSize * pageSize + position) := by
  have tables := layout.tables
  have isTable : IsTable mem setup.root table := ⟨_, by simp [directory], found⟩
  have samePage : pageOf (address / pageSize * pageSize + position) = pageOf address := by
    simp only [pageOf, pageSize] at *
    omega
  have mapped := (layout.install contains found isHeap).2.2.1
  rw [← translate_of_samePage samePage] at mapped
  have givenPage_eq : (givenPage / pageSize * pageSize + position) / pageSize =
      givenPage / pageSize := by
    simp only [pageSize] at *
    omega
  have mappedGiven : translate mem setup.root (givenPage / pageSize * pageSize + position) =
      some (heapFrame (givenPage / pageSize)) := by
    rw [layout.translate_heap (by rwa [givenPage_eq]), givenPage_eq]
  have sameOffset : (address / pageSize * pageSize + position) % pageSize =
      (givenPage / pageSize * pageSize + position) % pageSize := by
    simp only [pageSize]
    omega
  rw [loadByte, loadByte, physical, physical, mapped, mappedGiven, sameOffset,
    Option.map_some, Option.map_some, Option.map_some, install_eq tables.root_pos,
    tables.pteditTable_of_hardwareTable found, Option.some.injEq]
  exact layout.heapByte_writeWord isHeap isTable (Nat.mod_lt _ (by decide))

theorem iteration (layout : HeapLayout setup heapFrame mem) {id : Id} {region : Region}
    {blocks : List ℕ} {faultCnt address givenPage table : ℕ}
    (contains : (setup.region id).Contains address)
    (found : hardwareTable mem setup.root address = some table)
    (mallocs : setup.Mallocs blocks givenPage)
    (iterated : iteration setup.root region faultCnt address givenPage mem = some mem') :
    HeapLayout setup heapFrame mem' ∧
      (∀ other, hardwareTable mem' setup.root other = hardwareTable mem setup.root other) ∧
      translate mem' setup.root address = some (heapFrame (givenPage / pageSize)) ∧
      ∀ other, pageOf other ≠ pageOf address →
        translate mem' setup.root other = translate mem setup.root other := by
  rw [FaultHandler.iteration, Option.map_eq_some_iff] at iterated
  rcases iterated with ⟨bytes, filled, rfl⟩
  rcases layout.storeBytes (fill_onHeap mallocs filled) with ⟨layoutFilled, sameTable, sameFrame⟩
  rw [← sameTable] at found
  rcases layoutFilled.install contains found mallocs.2.1 with
    ⟨installed, sameInstalled, mapped, kept⟩
  exact ⟨installed, fun other => (sameInstalled other).trans (sameTable other), mapped,
    fun other otherPage => (kept other otherPage).trans (sameFrame other)⟩

/-- What an iteration puts on the page of the fault address: the bytes of the heap page that
lie before `given_page`, and then the first bytes of the fill. -/
theorem loadByte_iteration (layout : HeapLayout setup heapFrame mem) {id : Id}
    {region : Region} {blocks : List ℕ} {bytes : List (BitVec 8)}
    {faultCnt address givenPage position table : ℕ}
    (contains : (setup.region id).Contains address)
    (found : hardwareTable mem setup.root address = some table)
    (mallocs : setup.Mallocs blocks givenPage)
    (filled : region.fillBytes faultCnt address = some bytes)
    (iterated : FaultHandler.iteration setup.root region faultCnt address givenPage mem = some mem')
    (inPage : position < pageSize) :
    loadByte mem' setup.root (address / pageSize * pageSize + position) =
      if givenPage % pageSize ≤ position then bytes[position - givenPage % pageSize]?
      else loadByte mem setup.root (givenPage / pageSize * pageSize + position) := by
  rw [FaultHandler.iteration, filled, Option.map_some, Option.some.injEq] at iterated
  subst mem'
  have filled_length := Region.fillBytes_length filled
  have onHeap := fill_onHeap mallocs filled
  have isHeap := mallocs.2.1
  have givenPage_eq : (givenPage / pageSize * pageSize + position) / pageSize =
      givenPage / pageSize := by
    simp only [pageSize] at *
    omega
  rcases layout.storeBytes onHeap with ⟨layoutFilled, sameTable, _⟩
  rw [← sameTable] at found
  rw [layoutFilled.loadByte_install contains found isHeap inPage,
    layout.loadByte_storeBytes onHeap (by rwa [givenPage_eq]), filled_length]
  by_cases inFill : givenPage % pageSize ≤ position
  · have offset : givenPage / pageSize * pageSize + position - givenPage =
        position - givenPage % pageSize := by
      simp only [pageSize] at *
      omega
    rw [if_pos inFill, if_pos (by simp only [pageSize] at *; omega), offset]
  · rw [if_neg inFill, if_neg (by simp only [pageSize] at *; omega)]

/-- What an iteration does to a page that another iteration has installed: the part of the fill
that lies on the heap page behind it. -/
theorem loadByte_iteration_of_ne (layout : HeapLayout setup heapFrame mem)
    {region : Region} {blocks : List ℕ} {bytes : List (BitVec 8)}
    {faultCnt address givenPage other page table : ℕ}
    (found : hardwareTable mem setup.root address = some table)
    (mallocs : setup.Mallocs blocks givenPage)
    (filled : region.fillBytes faultCnt address = some bytes)
    (iterated : FaultHandler.iteration setup.root region faultCnt address givenPage mem = some mem')
    (otherPage : pageOf other ≠ pageOf address) (isHeap : setup.isHeap page = true)
    (mapped : translate mem setup.root other = some (heapFrame page)) :
    loadByte mem' setup.root other =
      if givenPage ≤ page * pageSize + other % pageSize ∧
          page * pageSize + other % pageSize < givenPage + pageSize then
        bytes[page * pageSize + other % pageSize - givenPage]?
      else loadByte mem setup.root other := by
  rw [FaultHandler.iteration, filled, Option.map_some, Option.some.injEq] at iterated
  subst mem'
  have filled_length := Region.fillBytes_length filled
  have onHeap := fill_onHeap mallocs filled
  rcases layout.storeBytes onHeap with ⟨layoutFilled, sameTable, sameFrame⟩
  rw [← sameTable] at found
  have page_eq : (page * pageSize + other % pageSize) / pageSize = page := by
    simp only [pageSize]
    omega
  have offset_eq : (page * pageSize + other % pageSize) % pageSize = other % pageSize := by
    simp only [pageSize]
    omega
  have mappedHeap : translate mem setup.root (page * pageSize + other % pageSize) =
      some (heapFrame page) := by
    rw [layout.translate_heap (by rwa [page_eq]), page_eq]
  rw [install_eq layoutFilled.tables.root_pos,
    layoutFilled.tables.pteditTable_of_hardwareTable found]
  refine (layoutFilled.loadByte_writeEntry found otherPage isHeap
    (by rw [sameFrame, mapped])).trans ?_
  rw [← loadByte_congr (by rw [sameFrame, sameFrame, mappedHeap, mapped]) offset_eq,
    layout.loadByte_storeBytes onHeap (by rwa [page_eq]), filled_length,
    loadByte_congr (by rw [mappedHeap, mapped]) offset_eq]

end HeapLayout

theorem Environment.iteration (environment : Environment setup heapFrame mem) {id : Id}
    {region : Region} {blocks : List ℕ} {faultCnt address givenPage : ℕ}
    (contains : (setup.region id).Contains address) (mallocs : setup.Mallocs blocks givenPage)
    (iterated : iteration setup.root region faultCnt address givenPage mem = some mem') :
    Environment setup heapFrame mem' ∧
      translate mem' setup.root address = some (heapFrame (givenPage / pageSize)) ∧
      ∀ other, pageOf other ≠ pageOf address →
        translate mem' setup.root other = translate mem setup.root other := by
  rcases environment.regionSlot contains with ⟨table, found⟩
  rcases environment.toHeapLayout.iteration contains found mallocs iterated with
    ⟨layout, sameTable, mapped, kept⟩
  refine ⟨⟨layout, ?_⟩, mapped, kept⟩
  intro id other containsOther
  rw [sameTable]
  exact environment.regionSlot containsOther

/-! ## The intended content -/

namespace Region

/-- The byte that belongs at an address of the region. -/
def byteAt (region : Region) (faultCnt address : ℕ) : Option (BitVec 8) :=
  match region.fd with
  | none => some (fillLetter faultCnt)
  | some file => file[region.offset + (address - region.baseAddr)]?

/-- The file covers the region. -/
def Covered (region : Region) : Prop :=
  ∀ file, region.fd = some file → region.offset + region.length ≤ file.length

/-- The region with another file, or with none. -/
def backedBy (region : Region) (fd : Option (List (BitVec 8))) : Region :=
  { region with fd := fd }

variable {region : Region} {faultCnt address : ℕ}

theorem byteAt_backedBy {file : List (BitVec 8)} :
    (region.backedBy (some file)).byteAt faultCnt address =
      file[region.offset + (address - region.baseAddr)]? :=
  rfl

theorem fileOffset_eq (contains : region.Contains address) :
    region.fileOffset address = region.offset + (address - region.baseAddr) := by
  have offset_fits := region.offset_fits
  have inUserSpace := region.inUserSpace
  rcases contains with ⟨low, high⟩
  have regionOffset : (address + 2 ^ 64 - region.baseAddr) % 2 ^ 64 =
      address - region.baseAddr := by
    omega
  rw [fileOffset, regionOffset, Nat.mod_eq_of_lt (by omega)]

theorem pread_eq (contains : region.Contains address) (file : List (BitVec 8)) :
    pread file pageSize (region.fileOffset address) =
      some ((file.drop (region.offset + (address - region.baseAddr))).take pageSize) := by
  have offset_fits := region.offset_fits
  rcases contains with ⟨low, high⟩
  rw [fileOffset_eq ⟨low, high⟩, pread, if_pos (by omega)]

theorem getElem_fillBytes {bytes : List (BitVec 8)} (contains : region.Contains address)
    (filled : region.fillBytes faultCnt address = some bytes) {position : ℕ}
    (inPage : position < pageSize) :
    bytes[position]? = region.byteAt faultCnt (address + position) := by
  rcases contains with ⟨low, high⟩
  unfold fillBytes at filled
  unfold byteAt
  cases fd_eq : region.fd with
  | none =>
      simp only [fd_eq, Option.some.injEq] at filled
      rw [← filled, List.getElem?_replicate, if_pos inPage]
  | some file =>
      simp only [fd_eq] at filled
      rw [pread_eq ⟨low, high⟩, Option.filter_eq_some_iff, Option.some.injEq] at filled
      have position_eq : region.offset + (address - region.baseAddr) + position =
          region.offset + (address + position - region.baseAddr) := by
        omega
      rw [← filled.1, List.getElem?_take_of_lt inPage, List.getElem?_drop, position_eq]

/-- The file of the region has the bytes of a page from the address on. -/
def HasPage (region : Region) (address : ℕ) : Prop :=
  ∀ file, region.fd = some file →
    region.offset + (address - region.baseAddr) + pageSize ≤ file.length

theorem fillBytes_of_hasPage (contains : region.Contains address)
    (hasPage : region.HasPage address) (faultCnt : ℕ) :
    ∃ bytes, region.fillBytes faultCnt address = some bytes := by
  unfold fillBytes
  cases fd_eq : region.fd with
  | none => exact ⟨_, rfl⟩
  | some file =>
      have room : pageSize ≤ file.length - (region.offset + (address - region.baseAddr)) :=
        Nat.le_sub_of_add_le' (hasPage file fd_eq)
      refine ⟨(file.drop (region.offset + (address - region.baseAddr))).take pageSize, ?_⟩
      simp only [pread_eq contains]
      refine Option.filter_eq_some_iff.mpr ⟨rfl, decide_eq_true ?_⟩
      rw [List.length_take, List.length_drop, Nat.min_eq_left room]

theorem Covered.hasPage (covered : region.Covered) (contains : region.Contains address)
    (aligned : region.fd.isSome → address % pageSize = 0) : region.HasPage address := by
  intro file fd_eq
  have long := covered file fd_eq
  have isAligned := aligned (by rw [fd_eq]; rfl)
  have base_aligned := region.base_aligned
  have length_aligned := region.length_aligned
  rcases contains with ⟨low, high⟩
  simp only [pageSize] at *
  omega

end Region

/-- The page of the address has an entry in a table of the last level. -/
def HasSlot (mem : Bytes) (root address : ℕ) : Prop :=
  ∃ table, hardwareTable mem root address = some table

/-- The assertion of the iteration holds, and all bytes that can be read through the page of
the fault address afterwards are those that belong there. -/
def PageRight (root : ℕ) (region : Region) (faultCnt address givenPage : ℕ) (mem : Bytes) : Prop :=
  ∃ mem', iteration root region faultCnt address givenPage mem = some mem' ∧
    ∀ position, position < pageSize →
      loadByte mem' root (address / pageSize * pageSize + position) =
        region.byteAt faultCnt (address / pageSize * pageSize + position)

section

variable {id : Id} {blocks : List ℕ} {faultCnt address givenPage : ℕ}

/-- When the page is right, byte for byte. -/
theorem pageRight_iff_bytes {region : Region} (layout : HeapLayout setup heapFrame mem)
    (slot : HasSlot mem setup.root address) (contains : (setup.region id).Contains address)
    (containsSame : region.Contains address) (mallocs : setup.Mallocs blocks givenPage) :
    PageRight setup.root region faultCnt address givenPage mem ↔
      (∃ bytes, region.fillBytes faultCnt address = some bytes) ∧
        ∀ position, position < pageSize →
          (if givenPage % pageSize ≤ position then
            region.byteAt faultCnt (address + (position - givenPage % pageSize))
          else loadByte mem setup.root (givenPage / pageSize * pageSize + position)) =
            region.byteAt faultCnt (address / pageSize * pageSize + position) := by
  have content : ∀ {bytes : List (BitVec 8)} {mem' : Bytes},
      region.fillBytes faultCnt address = some bytes →
      iteration setup.root region faultCnt address givenPage mem = some mem' →
      ∀ position, position < pageSize →
        loadByte mem' setup.root (address / pageSize * pageSize + position) =
          if givenPage % pageSize ≤ position then
            region.byteAt faultCnt (address + (position - givenPage % pageSize))
          else loadByte mem setup.root (givenPage / pageSize * pageSize + position) := by
    intro bytes mem' filled iterated position inPage
    rcases slot with ⟨table, found⟩
    rw [layout.loadByte_iteration contains found mallocs filled iterated inPage,
      Region.getElem_fillBytes containsSame filled (by omega)]
  constructor
  · rintro ⟨mem', iterated, right⟩
    rcases Option.map_eq_some_iff.mp iterated with ⟨bytes, filled, _⟩
    refine ⟨⟨bytes, filled⟩, ?_⟩
    intro position inPage
    rw [← content filled iterated position inPage]
    exact right position inPage
  · rintro ⟨⟨bytes, filled⟩, right⟩
    refine ⟨_, by rw [iteration, filled, Option.map_some], ?_⟩
    intro position inPage
    rw [content filled (by rw [iteration, filled, Option.map_some]) position inPage]
    exact right position inPage

theorem pageRight_of_aligned {region : Region} (layout : HeapLayout setup heapFrame mem)
    (slot : HasSlot mem setup.root address) (contains : (setup.region id).Contains address)
    (containsSame : region.Contains address) (mallocs : setup.Mallocs blocks givenPage)
    (covered : region.Covered) (aligned : givenPage % pageSize = 0)
    (isStart : region.fd.isSome → address % pageSize = 0) :
    PageRight setup.root region faultCnt address givenPage mem := by
  refine (pageRight_iff_bytes layout slot contains containsSame mallocs).mpr ⟨?_, ?_⟩
  · exact Region.fillBytes_of_hasPage containsSame (covered.hasPage containsSame isStart) faultCnt
  · intro position inPage
    rw [if_pos (by omega), aligned, Nat.sub_zero]
    unfold Region.byteAt
    cases fd_eq : region.fd with
    | none => rfl
    | some file =>
        have pageStart : address / pageSize * pageSize = address := by
          have start := isStart (by rw [fd_eq]; rfl)
          simp only [pageSize] at start ⊢
          omega
        simp only [pageStart]

theorem aligned_of_pageRight {region : Region} (layout : HeapLayout setup heapFrame mem)
    (slot : HasSlot mem setup.root address) (contains : (setup.region id).Contains address)
    (containsSame : region.Contains address) (mallocs : setup.Mallocs blocks givenPage)
    (right : ∀ mem', HeapLayout setup heapFrame mem' → HasSlot mem' setup.root address →
      PageRight setup.root region faultCnt address givenPage mem') :
    givenPage % pageSize = 0 := by
  by_contra inside
  have isHeap := mallocs.2.1
  have givenPage_eq : givenPage / pageSize * pageSize / pageSize = givenPage / pageSize := by
    simp only [pageSize]
    omega
  have mapped : translate mem setup.root (givenPage / pageSize * pageSize) = _ :=
    layout.translate_heap (by rwa [givenPage_eq])
  rw [givenPage_eq] at mapped
  have stale : ∀ byte, some byte =
      region.byteAt faultCnt (address / pageSize * pageSize + 0) := by
    intro byte
    rcases layout.storeByte isHeap mapped byte with ⟨stored, sameTable, _⟩
    have slotStored : HasSlot (storeByte mem setup.root (givenPage / pageSize * pageSize) byte)
        setup.root address := by
      rw [HasSlot, sameTable]
      exact slot
    have shown := ((pageRight_iff_bytes stored slotStored contains containsSame mallocs).mp
      (right _ stored slotStored)).2 0 (by decide)
    rw [if_neg (by omega), Nat.add_zero,
      layout.loadByte_storeByte isHeap mapped mapped, if_pos rfl] at shown
    exact shown
  have same := (stale 0).trans (stale 1).symm
  simp at same

theorem start_of_pageRight (layout : HeapLayout setup heapFrame mem)
    (slot : HasSlot mem setup.root address) (contains : (setup.region id).Contains address)
    (mallocs : setup.Mallocs blocks givenPage)
    (aligned : givenPage % pageSize = 0)
    (right : ∀ file : List (BitVec 8), ((setup.region id).backedBy (some file)).Covered →
      PageRight setup.root ((setup.region id).backedBy (some file)) faultCnt address givenPage
        mem) :
    address % pageSize = 0 := by
  by_contra inside
  let region := setup.region id
  let first := region.offset + (address / pageSize * pageSize - region.baseAddr)
  let file : List (BitVec 8) := (List.replicate (region.offset + region.length) 0).set first 1
  have base_aligned := region.base_aligned
  have distinct : first ≠ region.offset + (address - region.baseAddr) := by
    rcases contains with ⟨low, high⟩
    simp only [pageSize, first, region] at *
    omega
  have inFile : first < region.offset + region.length := by
    rcases contains with ⟨low, high⟩
    simp only [pageSize, first, region] at *
    omega
  have alsoInFile : region.offset + (address - region.baseAddr) <
      region.offset + region.length := by
    rcases contains with ⟨low, high⟩
    simp only [region] at *
    omega
  have covered : (region.backedBy (some file)).Covered := by
    intro other isFile
    rw [Region.backedBy, Option.some.injEq] at isFile
    subst other
    simp [file, Region.backedBy]
  have containsSame : (region.backedBy (some file)).Contains address := contains
  have shown := ((pageRight_iff_bytes layout slot contains containsSame mallocs).mp
    (right file covered)).2 0 (by decide)
  rw [if_pos (by omega), Nat.zero_sub, Nat.add_zero, Nat.add_zero, Region.byteAt_backedBy,
    Region.byteAt_backedBy] at shown
  have zero : file[region.offset + (address - region.baseAddr)]? = some 0 := by
    rw [List.getElem?_set_ne distinct, List.getElem?_replicate, if_pos alsoInFile]
  have one : file[first]? = some 1 := by
    rw [List.getElem?_set_self (by rwa [List.length_replicate])]
  rw [zero, one] at shown
  simp at shown

/-- For every region, every fault address whose page has a slot and every buffer of `malloc`, the
page that is read after the iteration is right for all contents of the file and of the memory
exactly when the buffer is aligned to pages and, if the region has a file, the fault address is,
too. -/
theorem pageRight_iff (layout : HeapLayout setup heapFrame mem)
    (slot : HasSlot mem setup.root address) (contains : (setup.region id).Contains address)
    (mallocs : setup.Mallocs blocks givenPage) :
    (∀ contents mem', contents.isSome = (setup.region id).fd.isSome →
      ((setup.region id).backedBy contents).Covered → HeapLayout setup heapFrame mem' →
        HasSlot mem' setup.root address →
          PageRight setup.root ((setup.region id).backedBy contents) faultCnt address givenPage
            mem') ↔
      givenPage % pageSize = 0 ∧ ((setup.region id).fd.isSome → address % pageSize = 0) := by
  constructor
  · intro right
    let zeros : Option (List (BitVec 8)) := (setup.region id).fd.map
      (fun _ => List.replicate ((setup.region id).offset + (setup.region id).length) 0)
    have covered : ((setup.region id).backedBy zeros).Covered := by
      intro file isFile
      rcases Option.map_eq_some_iff.mp isFile with ⟨_, _, rfl⟩
      simp [Region.backedBy]
    have containsSame : ((setup.region id).backedBy zeros).Contains address := contains
    have aligned := aligned_of_pageRight layout slot contains containsSame mallocs
      (fun mem' => right zeros mem' (by simp [zeros]) covered)
    refine ⟨aligned, fun isFile => ?_⟩
    exact start_of_pageRight layout slot contains mallocs aligned
      (fun file fileCovered => right (some file) mem (by simp [isFile]) fileCovered layout slot)
  · rintro ⟨aligned, isStart⟩ contents mem' sameKind covered layout' slot'
    exact pageRight_of_aligned layout' slot' contains contains mallocs covered aligned
      (fun isFile => isStart (sameKind ▸ isFile))

end

/-- A file of four pages with a mark in its first byte. -/
def sampleFile : List (BitVec 8) :=
  1 :: List.replicate 0x3fff 0

/-- The process with one region, over the sample file or over none. -/
def loneSetup (fd : Option (List (BitVec 8))) : Setup Unit :=
  sampleSetup (fun _ => fd) (fun _ => 0)

theorem loneSetup_covered {fd : Option (List (BitVec 8))}
    (long : ∀ file, fd = some file → 0x4000 ≤ file.length) :
    ((loneSetup fd).region ()).Covered := by
  intro file isFile
  have isLong := long file isFile
  simpa [loneSetup, sampleSetup, sampleRegion] using isLong

theorem pageRight_on_sample :
    ((loneSetup (some sampleFile)).region ()).Contains 0x101000 ∧
      (loneSetup (some sampleFile)).Mallocs [] 0x10000 ∧
      ∀ contents mem', contents.isSome = true →
        (((loneSetup (some sampleFile)).region ()).backedBy contents).Covered →
          HeapLayout (loneSetup (some sampleFile)) (fun page => page + 16) mem' →
            HasSlot mem' 1 0x101000 →
              PageRight 1 (((loneSetup (some sampleFile)).region ()).backedBy contents) 0 0x101000
                0x10000 mem' := by
  have contains : ((loneSetup (some sampleFile)).region ()).Contains 0x101000 := by decide
  have mallocs : (loneSetup (some sampleFile)).Mallocs [] 0x10000 := by decide
  refine ⟨contains, mallocs, ?_⟩
  have slot : HasSlot sampleMemory 1 0x101000 := ⟨4, sample_hardwareTable (by decide)⟩
  exact (pageRight_iff sample_environment.toHeapLayout slot contains mallocs).mpr
    ⟨by decide, fun _ => by decide⟩

/-- With a buffer at `0x10010` the first byte of a page is a stale byte of the heap and not the
fill letter. With a fault at `0x10000f` the first byte of the page is byte `15` of the file. With
a fault at `0x10300f`, in the last page, the file has no 4096 bytes left and the assertion fails. -/
theorem pageRight_fails :
    Environment (loneSetup none) (fun page => page + 16) sampleMemory ∧
      Environment (loneSetup (some sampleFile)) (fun page => page + 16) sampleMemory ∧
      ((loneSetup (some sampleFile)).region ()).Covered ∧
      (((loneSetup none).region ()).Contains 0x100000 ∧ (loneSetup none).Mallocs [] 0x10010 ∧
        ¬PageRight 1 ((loneSetup none).region ()) 0 0x100000 0x10010 sampleMemory) ∧
      (((loneSetup (some sampleFile)).region ()).Contains 0x10000f ∧
        (loneSetup (some sampleFile)).Mallocs [] 0x10000 ∧
        ¬PageRight 1 ((loneSetup (some sampleFile)).region ()) 0 0x10000f 0x10000 sampleMemory) ∧
      (((loneSetup (some sampleFile)).region ()).Contains 0x10300f ∧
        iteration 1 ((loneSetup (some sampleFile)).region ()) 0 0x10300f 0x10000 sampleMemory =
          none) := by
  have environment : Environment (loneSetup none) (fun page => page + 16) sampleMemory :=
    sample_environment
  have environmentFile : Environment (loneSetup (some sampleFile)) (fun page => page + 16)
      sampleMemory :=
    sample_environment
  have contains : ((loneSetup none).region ()).Contains 0x100000 := by decide
  have containsFile : ((loneSetup (some sampleFile)).region ()).Contains 0x10000f := by decide
  have mallocs : (loneSetup none).Mallocs [] 0x10010 := by decide
  have mallocsFile : (loneSetup (some sampleFile)).Mallocs [] 0x10000 := by decide
  refine ⟨environment, environmentFile, loneSetup_covered ?_, ⟨contains, mallocs, ?_⟩,
    ⟨containsFile, mallocsFile, ?_⟩, ⟨by decide, ?_⟩⟩
  · intro file isFile
    rw [Option.some.injEq] at isFile
    rw [← isFile, sampleFile, List.length_cons, List.length_replicate]
  · intro right
    have shown := ((pageRight_iff_bytes environment.toHeapLayout (environment.regionSlot contains)
      contains contains mallocs).mp right).2 0 (by decide)
    rw [if_neg (by decide)] at shown
    have stale : loadByte sampleMemory 1 (0x10010 / pageSize * pageSize + 0) = some 0 := by
      decide +kernel
    have letter : ((loneSetup none).region ()).byteAt 0 (0x100000 / pageSize * pageSize + 0) =
        some 65 := by
      decide
    rw [letter] at shown
    exact absurd (stale.symm.trans shown) (by decide)
  · intro right
    have shown := ((pageRight_iff_bytes environmentFile.toHeapLayout
      (environmentFile.regionSlot containsFile) containsFile containsFile mallocsFile).mp
      right).2 0 (by decide)
    rw [if_pos (by decide)] at shown
    have shifted : ((loneSetup (some sampleFile)).region ()).byteAt 0
        (0x10000f + (0 - 0x10000 % pageSize)) = some 0 := by
      decide +kernel
    have mark : ((loneSetup (some sampleFile)).region ()).byteAt 0
        (0x10000f / pageSize * pageSize + 0) = some 1 := by
      decide +kernel
    rw [shifted, mark] at shown
    apply absurd shown
    decide
  · rw [iteration, Option.map_eq_none_iff]
    rw [Option.eq_none_iff_forall_ne_some]
    intro bytes filled
    have short := Region.getElem_fillBytes (by decide) filled (show 0xff1 < pageSize by decide)
    have filled_length := Region.fillBytes_length filled
    have past : ((loneSetup (some sampleFile)).region ()).byteAt 0 (0x10300f + 0xff1) = none := by
      decide +kernel
    rw [past, List.getElem?_eq_none_iff, filled_length] at short
    apply absurd short
    decide

/-! ## Two regions -/

/-- The process with two regions of anonymous memory. -/
def twoSetup : Setup (Fin 2) :=
  sampleSetup (fun _ => none) (fun id => if id = 0 then 0 else 4)

theorem iteration_of_anonymous {region : Region} (anonymous : region.fd = none)
    (root faultCnt address givenPage : ℕ) (mem : Bytes) :
    ∃ mem', iteration root region faultCnt address givenPage mem = some mem' := by
  rw [iteration, Region.fillBytes, anonymous]
  exact ⟨_, rfl⟩

/-- Both regions have been served one after the other, in a run that is guarded at the reads. -/
theorem two_served (guard : Process (Fin 2) → Action (Fin 2) → Prop)
    (allows : ∀ state action,
      (∀ id address, action = .read id address → ∀ other, state.pc other = .polling) →
        guard state action) :
    ∃ past process, Guarded guard past ∧
      Run (step twoSetup) (start sampleMemory) past process ∧
      translate process.mem twoSetup.root 0x100234 = some 32 ∧
      translate process.mem twoSetup.root 0x110000 = some 33 := by
  have contains : (twoSetup.region 0).Contains 0x100234 := by decide
  have containsOther : (twoSetup.region 1).Contains 0x110000 := by decide
  have environment : Environment twoSetup (fun page => page + 16) sampleMemory :=
    sample_environment
  have mallocs : twoSetup.Mallocs [] 0x10010 := by decide
  have mallocsOther : twoSetup.Mallocs [0x10010] 0x11010 := by decide
  have anonymous : ∀ id, (twoSetup.region id).fd = none := fun _ => rfl
  have runStart : Run (step twoSetup) (start sampleMemory) [] (start sampleMemory) := .start
  have runFault := runStart.extend (.fault 0 0x100234) (by simp [step, start, contains]; rfl)
  have runFaults := runFault.extend (.fault 1 0x110000) (by simp [step, containsOther]; rfl)
  rcases iteration_of_anonymous (anonymous 0) twoSetup.root 0 0x100234 0x10010 sampleMemory with
    ⟨mem, iterated⟩
  rcases iteration_of_anonymous (anonymous 1) twoSetup.root 0 0x110000 0x11010 mem with
    ⟨mem', iteratedOther⟩
  have allowsRest : ∀ id state, ∀ action ∈ [.getPfn id, .resolve id, .update id, .wake id],
      guard state action := by
    intro id state action isRest
    apply allows
    rintro actor address rfl
    simp at isRest
  rcases run_iteration runFaults
    (show Guarded guard _ by
      intro moment past
      simp only [List.mem_cons, List.not_mem_nil, or_false] at past
      rcases past with rfl | rfl
      · apply allows _ _
        simp
      · exact allows _ _ (by simp))
    0 0x100234 0x10010 rfl rfl (by simp) mallocs iterated (allows _ _ (fun _ _ _ _ => rfl))
    (fun _ _ => allows _ _ (by simp)) (allowsRest 0)
    with ⟨recent, _, guarded, run⟩
  rcases run_iteration run guarded 1 0x110000 0x11010 rfl rfl (by simp) mallocsOther
    (by simpa using iteratedOther) (allows _ _ (fun _ _ _ _ => rfl))
    (fun _ _ => allows _ _ (by simp)) (allowsRest 1)
    with ⟨recent', _, guarded', run'⟩
  rcases environment.iteration contains mallocs iterated with ⟨environmentFirst, mapped, _⟩
  rcases environmentFirst.iteration containsOther mallocsOther iteratedOther with
    ⟨_, mappedOther, kept⟩
  refine ⟨_, _, guarded', run', ?_, mappedOther⟩
  exact (kept _ (by decide)).trans mapped

end UserLevelMmap.FaultHandler
