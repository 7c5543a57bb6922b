import UserLevelMmap.Library.Extents
import UserLevelMmap.PageTable.Editor

/-!
# The memory map of a process

`src/PTEditor/demos/memmap.c` reads the tables of a process page by page, prints where the
user half of its address space is mapped, and adds up the mapped memory. It reads the whole
frame numbers, and it does not know pages of 1 GiB. Without them the printed extents list
exactly the addresses that the hardware translates, and the sum is their number.
-/

namespace UserLevelMmap.PageTable

open RadixTree Extent

variable {mem : Bytes} {root : ℕ}

/-! ## The tool -/

/-- What the tool prints. -/
inductive Line where
  | dumpingPid (pid : ℕ)
  | entry (type : String) (entry : Entry) (line : ℕ)
  | page (address : ℕ)
  | largePage (address : ℕ)
  | usedMemory (kb : BitVec 64)

/-- The lines printed so far, and `mem_usage`. -/
structure Output where
  lines : List Line
  memUsage : BitVec 64

def pteditPageBitPse : ℕ := 7

/-- `is_present`. -/
def isPresent (entry : Entry) : Bool :=
  entry &&& (1#64 <<< pteditPageBitPresent) ≠ 0

/-- `is_normal_page`. -/
def isNormalPage (entry : Entry) : Bool :=
  entry &&& (1#64 <<< pteditPageBitPse) = 0

/-- `ptedit_read_physical_page` into an array of `size_t`. -/
def pteditReadPhysicalPage (mem : Bytes) (pfn : ℕ) : ℕ → Entry :=
  fun index => mem.readWord (pfn * pteditPfnMultiply + index * pteditEntrySize)

namespace Output

def print (out : Output) (line : Line) : Output :=
  { out with lines := out.lines ++ [line] }

def use (out : Output) (bytes : BitVec 64) : Output :=
  { out with memUsage := out.memUsage + bytes }

/-- `dump`, with `dump_entry` set as in `main`. -/
def dump (out : Output) (entry : Entry) (type : String) : Output :=
  (List.range 4).foldl (fun out line => out.print (.entry type entry line)) out

/-- The loop over the entries of a page table. -/
def ptLoop (out : Output) (pt : ℕ → Entry) (pml4i pdpti pdi : ℕ) : Output :=
  (List.range 512).foldl
    (fun out pti =>
      if isPresent (pt pti) = false then out
      else
        let out := out.dump (pt pti) "        PT  "
        let out := out.print (.page (pti <<< 12 ||| pdi <<< 21 ||| pdpti <<< 30 ||| pml4i <<< 39))
        out.use 4096#64)
    out

/-- The loop over the entries of a page directory. -/
def pdLoop (out : Output) (mem : Bytes) (pd : ℕ → Entry) (pml4i pdpti : ℕ) : Output :=
  (List.range 512).foldl
    (fun out pdi =>
      if isPresent (pd pdi) = false then out
      else
        let out := out.dump (pd pdi) "    PD  "
        if isNormalPage (pd pdi) then
          out.ptLoop (pteditReadPhysicalPage mem (pteditGetPfn (pd pdi)).toNat) pml4i pdpti pdi
        else
          let out := out.print (.largePage (pdi <<< 21 ||| pdpti <<< 30 ||| pml4i <<< 39))
          out.use (BitVec.ofNat 64 (2 * 1024 * 1024)))
    out

/-- The loop over the entries of a page-directory-pointer table. -/
def pdptLoop (out : Output) (mem : Bytes) (pdpt : ℕ → Entry) (pml4i : ℕ) : Output :=
  (List.range 512).foldl
    (fun out pdpti =>
      if isPresent (pdpt pdpti) = false then out
      else
        let out := out.dump (pdpt pdpti) "PDPT"
        out.pdLoop mem (pteditReadPhysicalPage mem (pteditGetPfn (pdpt pdpti)).toNat) pml4i pdpti)
    out

/-- The loop over the first half of the entries of the top table. -/
def pml4Loop (out : Output) (mem : Bytes) (pml4 : ℕ → Entry) : Output :=
  (List.range 256).foldl
    (fun out pml4i =>
      if isPresent (pml4 pml4i) = false then out
      else
        let out := out.dump (pml4 pml4i) ""
        out.pdptLoop mem (pteditReadPhysicalPage mem (pteditGetPfn (pml4 pml4i)).toNat) pml4i)
    out

end Output

/-- `main` of the tool; `pagingRoot` is `ptedit_get_paging_root`. -/
def memmap (mem : Bytes) (pagingRoot : ℕ → ℕ) (pid : ℕ) : List Line :=
  let root := pagingRoot pid
  let pml4 := pteditReadPhysicalPage mem (root / pteditPfnMultiply)
  let out := Output.pml4Loop ⟨[.dumpingPid pid], 0#64⟩ mem pml4
  (out.print (.usedMemory (out.memUsage / 1024))).lines

/-! ## Entries and addresses -/

theorem isPresent_eq (entry : Entry) : isPresent entry = entry.present := by
  have bit : (1#64 <<< pteditPageBitPresent) = BitVec.twoPow 64 0 := by decide
  rw [isPresent, bit, BitVec.and_twoPow, Entry.present]
  cases entry.getLsbD 0 <;> decide

theorem isNormalPage_eq (entry : Entry) : isNormalPage entry = !entry.size := by
  have bit : (1#64 <<< pteditPageBitPse) = BitVec.twoPow 64 7 := by decide
  rw [isNormalPage, bit, BitVec.and_twoPow, Entry.size]
  cases entry.getLsbD 7 <;> decide

theorem slots_eq_readPage {frame number index : ℕ} (isIndex : number % 512 = index) :
    slots mem frame (Fin.ofNat 512 number) = pteditReadPhysicalPage mem frame index := by
  rw [slots, pteditReadPhysicalPage, entryAddress, Fin.val_ofNat, isIndex]

theorem lor_shiftLeft {low width : ℕ} (isLow : low < 2 ^ width) (high : ℕ) :
    low ||| high <<< width = low + high * 2 ^ width := by
  rw [Nat.or_comm, ← Nat.shiftLeft_add_eq_or_of_lt isLow, Nat.shiftLeft_eq, Nat.add_comm]

theorem largePage_address {pml4i pdpti pdi : ℕ} (isPdpti : pdpti < 512) (isPdi : pdi < 512) :
    pdi <<< 21 ||| pdpti <<< 30 ||| pml4i <<< 39 =
      pml4i * 2 ^ 39 + pdpti * 2 ^ 30 + pdi * 2 ^ 21 := by
  have inner : pdi <<< 21 ||| pdpti <<< 30 = pdi * 2 ^ 21 + pdpti * 2 ^ 30 := by
    rw [Nat.shiftLeft_eq pdi, lor_shiftLeft (by omega)]
  rw [inner, lor_shiftLeft (by omega)]
  omega

theorem page_address {pml4i pdpti pdi pti : ℕ} (isPdpti : pdpti < 512) (isPdi : pdi < 512)
    (isPti : pti < 512) :
    pti <<< 12 ||| pdi <<< 21 ||| pdpti <<< 30 ||| pml4i <<< 39 =
      pml4i * 2 ^ 39 + pdpti * 2 ^ 30 + pdi * 2 ^ 21 + pti * 4096 := by
  have inner : pti <<< 12 ||| pdi <<< 21 = (pdi * 2 ^ 9 + pti) <<< 12 := by
    rw [Nat.shiftLeft_eq pti, lor_shiftLeft (by omega), Nat.shiftLeft_eq]
    omega
  have middle : pti <<< 12 ||| pdi <<< 21 ||| pdpti <<< 30 =
      pti * 4096 + pdi * 2 ^ 21 + pdpti * 2 ^ 30 := by
    rw [inner, Nat.shiftLeft_eq, lor_shiftLeft (by omega)]
    omega
  rw [middle, lor_shiftLeft (by omega)]
  omega

/-- The hardware translates the address. -/
def Mapped (mem : Bytes) (root address : ℕ) : Prop :=
  (translate mem root address).isSome = true

instance (mem : Bytes) (root : ℕ) : DecidablePred (Mapped mem root) :=
  fun _ => inferInstanceAs (Decidable (_ = _))

/-- An entry of a page directory leads to a page, by the index into the page table. -/
def PdMaps (mem : Bytes) (pti : Fin 512) (pmd : Entry) : Prop :=
  pmd.present ∧ (pmd.size ∨ (slots mem pmd.frame pti : Entry).present)

/-- An entry of a page-directory-pointer table leads to a page, by the indices below it. -/
def PdptMaps (mem : Bytes) (pdi pti : Fin 512) (pud : Entry) : Prop :=
  pud.present ∧ (pud.size ∨ PdMaps mem pti (slots mem pud.frame pdi))

/-- An entry of the top table leads to a page, by the indices below it. -/
def Pml4Maps (mem : Bytes) (pdpti pdi pti : Fin 512) (pgd : Entry) : Prop :=
  pgd.present ∧ PdptMaps mem pdi pti (slots mem pgd.frame pdpti)

theorem mapped_iff {address : ℕ} :
    Mapped mem root address ↔
      Pml4Maps mem (Fin.ofNat 512 (address / 2 ^ 30)) (Fin.ofNat 512 (address / 2 ^ 21))
        (Fin.ofNat 512 (address / 2 ^ 12))
        (slots mem root (Fin.ofNat 512 (address / 2 ^ 39))) := by
  unfold Mapped translate leafIndex Pml4Maps PdptMaps PdMaps
  dsimp only
  split_ifs <;> simp_all

/-! ## The loops -/

/-- The extent that a line tells of. -/
def Line.extent : Line → Option Extent
  | .page address => some ⟨address, 4096⟩
  | .largePage address => some ⟨address, 2 ^ 21⟩
  | _ => none

/-- The extents that are printed. -/
def extents (lines : List Line) : List Extent :=
  lines.filterMap Line.extent

namespace Output

/-- The addresses with the property between two bounds are printed and added up. -/
def Dumps (out out' : Output) (P : ℕ → Prop) (low high : ℕ) : Prop :=
  ∃ found, Lists P low high found ∧ extents out'.lines = extents out.lines ++ found ∧
    out'.memUsage = out.memUsage + BitVec.ofNat 64 (totalSize found)

variable {out out' out'' : Output} {P : ℕ → Prop} {low middle high : ℕ}

@[simp]
theorem extents_dump (entry : Entry) (type : String) :
    extents (out.dump entry type).lines = extents out.lines := by
  simp [dump, print, extents, List.range_succ, Line.extent]

@[simp]
theorem memUsage_dump (entry : Entry) (type : String) :
    (out.dump entry type).memUsage = out.memUsage := by
  simp [dump, print, List.range_succ]

namespace Dumps

theorem skip (bounds : low ≤ high)
    (none : ∀ number, low ≤ number → number < high → ¬P number) : out.Dumps out P low high :=
  ⟨[], Lists.nil bounds none, by simp, by simp⟩

theorem trans (first : out.Dumps out' P low middle) (second : out'.Dumps out'' P middle high) :
    out.Dumps out'' P low high := by
  rcases first with ⟨found, lists, extents_eq, usage_eq⟩
  rcases second with ⟨found', lists', extents_eq', usage_eq'⟩
  refine ⟨found ++ found', lists.append lists', ?_, ?_⟩
  · rw [extents_eq', extents_eq, List.append_assoc]
  · rw [usage_eq', usage_eq, totalSize_append, BitVec.ofNat_add, BitVec.add_assoc]

/-- The entry that is printed first tells of no extent. -/
theorem after_dump {entry : Entry} {type : String}
    (rest : (out.dump entry type).Dumps out' P low high) : out.Dumps out' P low high := by
  rcases rest with ⟨found, lists, extents_eq, usage_eq⟩
  rw [extents_dump] at extents_eq
  rw [memUsage_dump] at usage_eq
  exact ⟨found, lists, extents_eq, usage_eq⟩

theorem print_use {line : Line} {size : ℕ} (isExtent : line.extent = some ⟨low, size⟩)
    (high_eq : high = low + size)
    (all : ∀ number, low ≤ number → number < high → P number) :
    out.Dumps ((out.print line).use (BitVec.ofNat 64 size)) P low high := by
  refine ⟨[⟨low, size⟩], Lists.single high_eq all, ?_, ?_⟩
  · simp [use, print, extents, isExtent]
  · simp [use, print]

/-- A loop dumps the blocks of its rounds. -/
theorem loop {width count : ℕ} {round : Output → ℕ → Output}
    (each : ∀ index < count, ∀ out : Output,
      out.Dumps (round out index) P (low + index * width) (low + (index + 1) * width)) :
    out.Dumps ((List.range count).foldl round out) P low (low + count * width) := by
  induction count with
  | zero => exact skip (by omega) (fun number isLow isHigh => by omega)
  | succ count ih =>
      rw [List.range_succ, List.foldl_append, List.foldl_cons, List.foldl_nil]
      exact (ih (fun index bound => each index (by omega))).trans (each count (by omega) _)

end Dumps

theorem ptLoop_dumps {pd : Entry} {pml4i pdpti pdi : ℕ} (isPdpti : pdpti < 512)
    (isPdi : pdi < 512) (low_eq : low = pml4i * 2 ^ 39 + pdpti * 2 ^ 30 + pdi * 2 ^ 21)
    (reached : ∀ number, low ≤ number → number < low + 2 ^ 21 →
      (P number ↔ (slots mem pd.frame (Fin.ofNat 512 (number / 2 ^ 12)) : Entry).present)) :
    out.Dumps (out.ptLoop (pteditReadPhysicalPage mem (pteditGetPfn pd).toNat) pml4i pdpti pdi)
      P low (low + 512 * 4096) := by
  apply Dumps.loop
  intro pti isPti out
  rw [toNat_pteditGetPfn, isPresent_eq]
  have entry_eq : ∀ number, low + pti * 4096 ≤ number → number < low + (pti + 1) * 4096 →
      (P number ↔ (pteditReadPhysicalPage mem pd.frame pti).present = true) := by
    intro number isLow isHigh
    have isIndex : number / 2 ^ 12 % 512 = pti := by omega
    rw [reached number (by omega) (by omega), slots_eq_readPage isIndex]
  split_ifs with isAbsent
  · apply Dumps.skip (by omega)
    intro number isLow isHigh
    rw [entry_eq number isLow isHigh, isAbsent]
    simp
  · apply Dumps.after_dump
    apply Dumps.print_use
    · rw [page_address isPdpti isPdi isPti, ← low_eq]
      rfl
    · omega
    · intro number isLow isHigh
      rw [entry_eq number isLow isHigh]
      simpa using isAbsent

theorem pdLoop_dumps {pdpt : Entry} {pml4i pdpti : ℕ} (isPdpti : pdpti < 512)
    (low_eq : low = pml4i * 2 ^ 39 + pdpti * 2 ^ 30)
    (reached : ∀ number, low ≤ number → number < low + 2 ^ 30 →
      (P number ↔
        PdMaps mem (Fin.ofNat 512 (number / 2 ^ 12))
          (slots mem pdpt.frame (Fin.ofNat 512 (number / 2 ^ 21))))) :
    out.Dumps (out.pdLoop mem (pteditReadPhysicalPage mem (pteditGetPfn pdpt).toNat) pml4i pdpti)
      P low (low + 512 * 2 ^ 21) := by
  apply Dumps.loop
  intro pdi isPdi out
  rw [toNat_pteditGetPfn, isPresent_eq, isNormalPage_eq]
  have entry_eq : ∀ number, low + pdi * 2 ^ 21 ≤ number → number < low + (pdi + 1) * 2 ^ 21 →
      (P number ↔ PdMaps mem (Fin.ofNat 512 (number / 2 ^ 12))
        (pteditReadPhysicalPage mem pdpt.frame pdi)) := by
    intro number isLow isHigh
    have isIndex : number / 2 ^ 21 % 512 = pdi := by omega
    rw [reached number (by omega) (by omega), slots_eq_readPage isIndex]
  generalize pteditReadPhysicalPage mem pdpt.frame pdi = pd at *
  have high_eq : low + (pdi + 1) * 2 ^ 21 = low + pdi * 2 ^ 21 + 512 * 4096 := by omega
  split_ifs with isAbsent isNormal
  · apply Dumps.skip (by omega)
    intro number isLow isHigh
    rw [entry_eq number isLow isHigh, PdMaps, isAbsent]
    simp
  · apply Dumps.after_dump
    rw [high_eq] at entry_eq ⊢
    refine ptLoop_dumps isPdpti isPdi (by rw [low_eq]) ?_
    intro number isLow isHigh
    rw [entry_eq number isLow (by omega), PdMaps]
    simp_all
  · apply Dumps.after_dump
    apply Dumps.print_use
    · rw [largePage_address isPdpti isPdi, ← low_eq]
      rfl
    · omega
    · intro number isLow isHigh
      rw [entry_eq number isLow isHigh, PdMaps]
      simp_all

theorem pdptLoop_dumps {pml4 : Entry} {pml4i : ℕ} (low_eq : low = pml4i * 2 ^ 39)
    (noHugePages : ∀ index, (slots mem pml4.frame index : Entry).present = true →
      (slots mem pml4.frame index : Entry).size = false)
    (reached : ∀ number, low ≤ number → number < low + 2 ^ 39 →
      (P number ↔
        PdptMaps mem (Fin.ofNat 512 (number / 2 ^ 21)) (Fin.ofNat 512 (number / 2 ^ 12))
          (slots mem pml4.frame (Fin.ofNat 512 (number / 2 ^ 30))))) :
    out.Dumps (out.pdptLoop mem (pteditReadPhysicalPage mem (pteditGetPfn pml4).toNat) pml4i)
      P low (low + 512 * 2 ^ 30) := by
  apply Dumps.loop
  intro pdpti isPdpti out
  rw [toNat_pteditGetPfn, isPresent_eq]
  have notHuge : (pteditReadPhysicalPage mem pml4.frame pdpti).present = true →
      (pteditReadPhysicalPage mem pml4.frame pdpti).size = false := by
    rw [← slots_eq_readPage (Nat.mod_eq_of_lt isPdpti)]
    exact noHugePages _
  have entry_eq : ∀ number, low + pdpti * 2 ^ 30 ≤ number →
      number < low + (pdpti + 1) * 2 ^ 30 →
        (P number ↔ PdptMaps mem (Fin.ofNat 512 (number / 2 ^ 21))
          (Fin.ofNat 512 (number / 2 ^ 12)) (pteditReadPhysicalPage mem pml4.frame pdpti)) := by
    intro number isLow isHigh
    have isIndex : number / 2 ^ 30 % 512 = pdpti := by omega
    rw [reached number (by omega) (by omega), slots_eq_readPage isIndex]
  generalize pteditReadPhysicalPage mem pml4.frame pdpti = pdpt at *
  have high_eq : low + (pdpti + 1) * 2 ^ 30 = low + pdpti * 2 ^ 30 + 512 * 2 ^ 21 := by omega
  split_ifs with isAbsent
  · apply Dumps.skip (by omega)
    intro number isLow isHigh
    rw [entry_eq number isLow isHigh, PdptMaps, isAbsent]
    simp
  · apply Dumps.after_dump
    rw [Bool.not_eq_false] at isAbsent
    rw [high_eq] at entry_eq ⊢
    refine pdLoop_dumps isPdpti (by rw [low_eq]) ?_
    intro number isLow isHigh
    rw [entry_eq number isLow (by omega), PdptMaps, isAbsent, notHuge isAbsent]
    simp

theorem pml4Loop_dumps (noHugePages : NoHugePages mem root) :
    out.Dumps (out.pml4Loop mem (pteditReadPhysicalPage mem root)) (Mapped mem root)
      0 (0 + 256 * 2 ^ 39) := by
  apply Dumps.loop
  intro pml4i isPml4i out
  rw [isPresent_eq]
  have isSlot : slots mem root (Fin.ofNat 512 pml4i) = pteditReadPhysicalPage mem root pml4i :=
    slots_eq_readPage (Nat.mod_eq_of_lt (by omega))
  have entry_eq : ∀ number, 0 + pml4i * 2 ^ 39 ≤ number → number < 0 + (pml4i + 1) * 2 ^ 39 →
      (Mapped mem root number ↔
        Pml4Maps mem (Fin.ofNat 512 (number / 2 ^ 30)) (Fin.ofNat 512 (number / 2 ^ 21))
          (Fin.ofNat 512 (number / 2 ^ 12)) (pteditReadPhysicalPage mem root pml4i)) := by
    intro number isLow isHigh
    have isIndex : number / 2 ^ 39 % 512 = pml4i := by omega
    rw [mapped_iff, slots_eq_readPage isIndex]
  have noHugePages' : (pteditReadPhysicalPage mem root pml4i).present = true → ∀ index,
      (slots mem (pteditReadPhysicalPage mem root pml4i).frame index : Entry).present = true →
        (slots mem (pteditReadPhysicalPage mem root pml4i).frame index : Entry).size = false := by
    intro isPresent
    have found : tableAt (slots mem) hardwareChild 0 root [Fin.ofNat 512 pml4i] =
        some (pteditReadPhysicalPage mem root pml4i).frame := by
      rw [tableAt, isSlot, hardwareChild_of_present isPresent (by simp)]
      rfl
    exact noHugePages rfl found
  generalize pteditReadPhysicalPage mem root pml4i = pml4 at *
  have high_eq : 0 + (pml4i + 1) * 2 ^ 39 = 0 + pml4i * 2 ^ 39 + 512 * 2 ^ 30 := by omega
  split_ifs with isAbsent
  · apply Dumps.skip (by omega)
    intro number isLow isHigh
    rw [entry_eq number isLow isHigh, Pml4Maps, isAbsent]
    simp
  · apply Dumps.after_dump
    rw [Bool.not_eq_false] at isAbsent
    rw [high_eq] at entry_eq ⊢
    refine pdptLoop_dumps (Nat.zero_add _) (noHugePages' isAbsent) ?_
    intro number isLow isHigh
    rw [entry_eq number isLow (by omega), Pml4Maps, isAbsent]
    simp

end Output

theorem ofNat_div_ofNat {number : ℕ} (small : number < 2 ^ 64) :
    BitVec.ofNat 64 number / 1024 = BitVec.ofNat 64 (number / 1024) := by
  apply BitVec.eq_of_toNat_eq
  rw [BitVec.toNat_udiv, BitVec.toNat_ofNat, BitVec.toNat_ofNat, Nat.mod_eq_of_lt small,
    Nat.mod_eq_of_lt (by omega)]
  rfl

/-- Without pages of 1 GiB the tool lists exactly the mapped addresses of the user half, in
ascending order and none of them twice, and prints how many KiB they are. -/
theorem memmap_lists_mapped {pagingRoot : ℕ → ℕ} {pid : ℕ}
    (noHugePages : NoHugePages mem (pagingRoot pid / pteditPfnMultiply)) :
    Lists (Mapped mem (pagingRoot pid / pteditPfnMultiply)) 0 (2 ^ 47)
        (extents (memmap mem pagingRoot pid)) ∧
      (memmap mem pagingRoot pid).getLast? =
        some (.usedMemory (BitVec.ofNat 64 (((Finset.Ico 0 (2 ^ 47)).filter
          (Mapped mem (pagingRoot pid / pteditPfnMultiply))).card / 1024))) := by
  have isHalf : 2 ^ 47 = 0 + 256 * 2 ^ 39 := by omega
  have start : extents [.dumpingPid pid] = [] := rfl
  have dumps : Output.Dumps ⟨[.dumpingPid pid], 0#64⟩ _ _ _ _ :=
    Output.pml4Loop_dumps noHugePages
  rcases dumps with ⟨found, lists, extents_eq, usage_eq⟩
  rw [← isHalf] at lists
  rw [start, List.nil_append] at extents_eq
  dsimp only at usage_eq
  rw [BitVec.zero_add] at usage_eq
  unfold memmap
  dsimp only [Output.print]
  constructor
  · have last : ∀ kb, List.filterMap Line.extent [.usedMemory kb] = [] := fun _ => rfl
    rw [extents, List.filterMap_append, ← extents, extents_eq, last, List.append_nil]
    exact lists
  · have small : totalSize found < 2 ^ 64 := by
      have atMost := Finset.card_filter_le (Finset.Ico 0 (2 ^ 47))
        (Mapped mem (pagingRoot pid / pteditPfnMultiply))
      rw [Nat.card_Ico] at atMost
      rw [lists.totalSize_eq]
      omega
    rw [List.getLast?_append, usage_eq, ofNat_div_ofNat small, lists.totalSize_eq]
    rfl

theorem chain_noHugePages : NoHugePages chainMemory 1 := by
  intro path table isSecond found index isPresent
  have atLevel := chain_tableAt (by omega) (walkTable_of_hardwareTable found)
  have table_eq : table = 2 := by omega
  subst table
  rw [chainMemory, slots_ofEntries, chainEntries, if_pos (by decide)] at isPresent ⊢
  split_ifs with isFirst
  · decide
  · decide

/-- In the chain of tables the first 512 pages are mapped, and the tool prints so. -/
theorem memmap_on_chain :
    Lists (Mapped chainMemory 1) 0 (2 ^ 47) (extents (memmap chainMemory (ownRoot 1) 0)) ∧
      Mapped chainMemory 1 0x1fffff ∧ ¬Mapped chainMemory 1 0x200000 := by
  have noHugePages : NoHugePages chainMemory (ownRoot 1 0 / pteditPfnMultiply) :=
    chain_noHugePages
  exact ⟨(memmap_lists_mapped noHugePages).1, by decide +kernel, by decide +kernel⟩

end UserLevelMmap.PageTable
