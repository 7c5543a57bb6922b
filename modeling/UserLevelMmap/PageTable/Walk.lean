import UserLevelMmap.Library.ByteMemory
import UserLevelMmap.Library.RadixTree
import UserLevelMmap.PageTable.Entry

/-!
# Walking the page tables

`ptedit_resolve_user_ext` and `ptedit_update_user_ext` of the PTEditor library, over
physical memory as `ptedit_phys_read_map` and `ptedit_phys_write_map` see it, and
the translation that the hardware makes of the same tables. The functions of the
library are generic in the paging definition; `ptedit_init` sets the one of
four-level paging on x86-64.

The library looks at the `size` bit of the third level only and reads table frames
through 28 bits, so its walk and that of the hardware are two instances of
`RadixTree.tableAt`, with the children `pteditChild` and `hardwareChild`.
-/

namespace UserLevelMmap.PageTable

open RadixTree

/-! ## The library -/

/-- `ptedit_entry_t`. -/
structure PteditEntry where
  pid : ℕ
  vaddr : ℕ
  pgd : Entry
  p4d : Entry
  pud : Entry
  pmd : Entry
  pte : Entry
  valid : BitVec 64

def pteditValidMaskPgd : BitVec 64 := 1#64 <<< 0
def pteditValidMaskP4d : BitVec 64 := 1#64 <<< 1
def pteditValidMaskPud : BitVec 64 := 1#64 <<< 2
def pteditValidMaskPmd : BitVec 64 := 1#64 <<< 3
def pteditValidMaskPte : BitVec 64 := 1#64 <<< 4

/-- `ptedit_pfn_multiply`. -/
def pteditPfnMultiply : ℕ := 4096

/-- `ptedit_entry_size`. -/
def pteditEntrySize : ℕ := 8

/-- `ptedit_paging_definition_t`. -/
structure PagingDefinition where
  hasPgd : Bool
  hasP4d : Bool
  hasPud : Bool
  hasPmd : Bool
  hasPt : Bool
  pgdEntries : ℕ
  p4dEntries : ℕ
  pudEntries : ℕ
  pmdEntries : ℕ
  ptEntries : ℕ
  pageOffset : ℕ

/-- The definition set by `ptedit_init` on x86-64. -/
def x86 : PagingDefinition where
  hasPgd := true
  hasP4d := false
  hasPud := true
  hasPmd := true
  hasPt := true
  pgdEntries := 9
  p4dEntries := 0
  pudEntries := 9
  pmdEntries := 9
  ptEntries := 9
  pageOffset := 12

namespace PagingDefinition

variable (paging : PagingDefinition) (addr : ℕ)

def pgdi : ℕ :=
  (addr >>> (paging.pageOffset + paging.ptEntries + paging.pmdEntries + paging.pudEntries +
    paging.p4dEntries)) % (1 <<< paging.pgdEntries)

def p4di : ℕ :=
  (addr >>> (paging.pageOffset + paging.ptEntries + paging.pmdEntries + paging.pudEntries)) %
    (1 <<< paging.p4dEntries)

def pudi : ℕ :=
  (addr >>> (paging.pageOffset + paging.ptEntries + paging.pmdEntries)) %
    (1 <<< paging.pudEntries)

def pmdi : ℕ :=
  (addr >>> (paging.pageOffset + paging.ptEntries)) % (1 <<< paging.pmdEntries)

def pti : ℕ :=
  (addr >>> paging.pageOffset) % (1 <<< paging.ptEntries)

end PagingDefinition

/-- The address of an entry in the table of a frame. -/
def entryAddress (pfn index : ℕ) : ℕ :=
  pfn * pteditPfnMultiply + index * pteditEntrySize

/-- `ptedit_resolve_user_ext`; `pagingRoot` is `ptedit_paging_root` for the own
process, with pid `0`, and `ptedit_get_paging_root` for others. -/
def pteditResolveUserExt (paging : PagingDefinition) (pagingRoot : ℕ → ℕ)
    (deref : ℕ → BitVec 64) (address pid : ℕ) : PteditEntry :=
  -- `root & ~1`
  let root := pagingRoot pid / 2 * 2
  let resolved : PteditEntry :=
    { pid := pid, vaddr := address, pgd := 0, p4d := 0, pud := 0, pmd := 0, pte := 0, valid := 0 }
  if root = 0 then resolved
  else
    let pgdEntry : Entry := deref (root + paging.pgdi address * pteditEntrySize)
    if pgdEntry.present = false then resolved
    else
      let resolved :=
        { resolved with pgd := pgdEntry, valid := resolved.valid ||| pteditValidMaskPgd }
      let p4dEntry : Entry :=
        if paging.hasP4d then deref (entryAddress pgdEntry.pfn (paging.p4di address))
        else pgdEntry
      let resolved :=
        { resolved with
          p4d := p4dEntry
          valid := if paging.hasP4d then resolved.valid ||| pteditValidMaskP4d
            else resolved.valid }
      if p4dEntry.present = false then resolved
      else
        let pudEntry : Entry :=
          if paging.hasPud then deref (entryAddress p4dEntry.pfn (paging.pudi address))
          else p4dEntry
        let resolved :=
          { resolved with
            pud := pudEntry
            valid := if paging.hasPud then resolved.valid ||| pteditValidMaskPud
              else resolved.valid }
        if pudEntry.present = false then resolved
        else
          let pmdEntry : Entry :=
            if paging.hasPmd then deref (entryAddress pudEntry.pfn (paging.pmdi address))
            else pudEntry
          let resolved :=
            { resolved with
              pmd := pmdEntry
              valid := if paging.hasPmd then resolved.valid ||| pteditValidMaskPmd
                else resolved.valid }
          if pmdEntry.present = false then resolved
          else if pmdEntry.size = false then
            { resolved with
              pte := deref (entryAddress pmdEntry.pfn (paging.pti address))
              valid := resolved.valid ||| pteditValidMaskPte }
          else resolved

/-- `ptedit_update_user_ext`, with `ptedit_resolve` and the word writes of
`ptedit_phys_write_map`. -/
def pteditUpdateUserExt (paging : PagingDefinition) (pagingRoot : ℕ → ℕ) (mem : Bytes)
    (address pid : ℕ) (vm : PteditEntry) : Bytes :=
  let current := pteditResolveUserExt paging pagingRoot mem.readWord address pid
  let root := pagingRoot pid / 2 * 2
  if root = 0 then mem
  else
    let both (mask : BitVec 64) : Bool := vm.valid &&& mask ≠ 0 && current.valid &&& mask ≠ 0
    let mem :=
      if both pteditValidMaskPte then
        mem.writeWord (entryAddress current.pmd.pfn (paging.pti address)) vm.pte
      else mem
    let mem :=
      if both pteditValidMaskPmd && paging.hasPmd then
        mem.writeWord (entryAddress current.pud.pfn (paging.pmdi address)) vm.pmd
      else mem
    let mem :=
      if both pteditValidMaskPud && paging.hasPud then
        mem.writeWord (entryAddress current.p4d.pfn (paging.pudi address)) vm.pud
      else mem
    let mem :=
      if both pteditValidMaskP4d && paging.hasP4d then
        mem.writeWord (entryAddress current.pgd.pfn (paging.p4di address)) vm.p4d
      else mem
    if both pteditValidMaskPgd && paging.hasPgd then
      mem.writeWord (root + paging.pgdi address * pteditEntrySize) vm.pgd
    else mem

/-- `ptedit_resolve` in the implementation that `ul_mmap` selects. -/
def pteditResolve (pagingRoot : ℕ → ℕ) (mem : Bytes) (address pid : ℕ) : PteditEntry :=
  pteditResolveUserExt x86 pagingRoot mem.readWord address pid

/-- `ptedit_update` in the implementation that `ul_mmap` selects. -/
def pteditUpdate (pagingRoot : ℕ → ℕ) (mem : Bytes) (address pid : ℕ) (vm : PteditEntry) :
    Bytes :=
  pteditUpdateUserExt x86 pagingRoot mem address pid vm

/-- `ptedit_pte_get_pfn`. -/
def pteditPteGetPfn (pagingRoot : ℕ → ℕ) (mem : Bytes) (address pid : ℕ) : BitVec 64 :=
  let vm := pteditResolve pagingRoot mem address pid
  if vm.valid &&& pteditValidMaskPte = 0 then 0 else pteditGetPfn vm.pte

/-- The paging root of the own process, whose top table is in the given frame. -/
def ownRoot (root : ℕ) : ℕ → ℕ :=
  fun _ => root * pteditPfnMultiply

/-! ## The tables in physical memory -/

/-- The entries of the tables in memory. -/
def slots (mem : Bytes) (frame : ℕ) (index : Fin 512) : Entry :=
  mem.readWord (entryAddress frame index)

/-- The indices of an address in the tables of the upper three levels. -/
def directory (address : ℕ) : List (Fin 512) :=
  [Fin.ofNat 512 (address / 2 ^ 39), Fin.ofNat 512 (address / 2 ^ 30),
    Fin.ofNat 512 (address / 2 ^ 21)]

/-- The index of an address in its last table. -/
def leafIndex (address : ℕ) : Fin 512 :=
  Fin.ofNat 512 (address / 2 ^ 12)

/-- The table that an entry points to, as the walk of the library sees it. -/
def pteditChild (level : ℕ) (entry : Entry) : Option ℕ :=
  if entry.present ∧ (level = 2 → entry.size = false) then some entry.pfn else none

/-- The table that an entry points to, as the hardware sees it. -/
def hardwareChild (level : ℕ) (entry : Entry) : Option ℕ :=
  if entry.present ∧ (level ≠ 0 → entry.size = false) then some entry.frame else none

/-- The last table on the walk of the library for an address. -/
def pteditTable (mem : Bytes) (root address : ℕ) : Option ℕ :=
  tableAt (slots mem) pteditChild 0 root (directory address)

/-- The frame of 4 KiB to which the hardware translates the page of an address,
with large pages of 1 GiB and of 2 MiB. -/
def translate (mem : Bytes) (root address : ℕ) : Option ℕ :=
  let pgd : Entry := slots mem root (Fin.ofNat 512 (address / 2 ^ 39))
  if pgd.present = false then none
  else
    let pud : Entry := slots mem pgd.frame (Fin.ofNat 512 (address / 2 ^ 30))
    if pud.present = false then none
    else if pud.size then some (pud.frame / 2 ^ 18 * 2 ^ 18 + address / 2 ^ 12 % 2 ^ 18)
    else
      let pmd : Entry := slots mem pud.frame (Fin.ofNat 512 (address / 2 ^ 21))
      if pmd.present = false then none
      else if pmd.size then some (pmd.frame / 2 ^ 9 * 2 ^ 9 + address / 2 ^ 12 % 2 ^ 9)
      else
        let pte : Entry := slots mem pmd.frame (leafIndex address)
        if pte.present then some pte.frame else none

end UserLevelMmap.PageTable
