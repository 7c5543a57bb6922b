import Mathlib.Algebra.Order.Ring.Int
import Mathlib.Data.Nat.Notation
import Mathlib.Logic.Function.Basic

/-!
# Page-table entries

The entries of x86-64 page tables as `src/PTEditor/ptedit_header.h` reads and
edits them. The walk of the library reads the frame number of a table through a
bit-field of 28 bits, while `ptedit_get_pfn` and `ptedit_set_pfn` use all 40 bits
that the hardware has for it.
-/

namespace UserLevelMmap.PageTable

/-- A page-table entry of any level. -/
abbrev Entry := BitVec 64

namespace Entry

/-- The bit-field `present`. -/
def present (entry : Entry) : Bool :=
  entry.getLsbD 0

/-- The bit-field `size` of an upper level: the entry maps a large page. -/
def size (entry : Entry) : Bool :=
  entry.getLsbD 7

/-- The bit-field `pfn`, 28 bits wide. -/
def pfn (entry : Entry) : ℕ :=
  (entry.extractLsb' 12 28).toNat

/-- The frame number in the entry as the hardware reads it, 40 bits wide. -/
def frame (entry : Entry) : ℕ :=
  (entry.extractLsb' 12 40).toNat

/-- Two entries that the walks treat alike. -/
def SameLink (entry other : Entry) : Prop :=
  entry.present = other.present ∧ entry.size = other.size ∧ entry.frame = other.frame

theorem frame_lt (entry : Entry) : entry.frame < 2 ^ 40 :=
  (entry.extractLsb' 12 40).isLt

theorem pfn_eq_mod (entry : Entry) : entry.pfn = entry.frame % 2 ^ 28 := by
  rw [pfn, frame, BitVec.extractLsb'_toNat, BitVec.extractLsb'_toNat,
    Nat.mod_mod_of_dvd _ (by decide)]

theorem pfn_eq_frame {entry : Entry} (small : entry.frame < 2 ^ 28) :
    entry.pfn = entry.frame := by
  rw [pfn_eq_mod, Nat.mod_eq_of_lt small]

theorem SameLink.pfn_eq {entry other : Entry} (same : entry.SameLink other) :
    entry.pfn = other.pfn := by
  rw [pfn_eq_mod, pfn_eq_mod, same.2.2]

end Entry

/-- The bits of the frame number in an entry. -/
def pfnMask : BitVec 64 :=
  ((1#64 <<< 40) - 1#64) <<< 12

/-- `ptedit_set_pfn`. -/
def pteditSetPfn (pte pfn : BitVec 64) : BitVec 64 :=
  (pte &&& ~~~pfnMask) ||| (pfn <<< 12)

/-- `ptedit_get_pfn`. -/
def pteditGetPfn (pte : BitVec 64) : BitVec 64 :=
  (pte &&& pfnMask) >>> 12

/-- `ptedit_pte_entry_set_bit`. -/
def pteditPteEntrySetBit (pte : BitVec 64) (bit : ℕ) : BitVec 64 :=
  pte ||| (1#64 <<< bit)

def pteditPageBitPresent : ℕ := 0
def pteditPageBitRw : ℕ := 1
def pteditPageBitUser : ℕ := 2

theorem getLsbD_pfnMask (i : ℕ) : pfnMask.getLsbD i = decide (12 ≤ i ∧ i < 52) := by
  by_cases bound : i < 64
  · have bits : ∀ j : Fin 64, pfnMask.getLsbD j = decide (12 ≤ (j : ℕ) ∧ (j : ℕ) < 52) := by
      decide
    exact bits ⟨i, bound⟩
  · rw [BitVec.getLsbD_of_ge _ _ (by omega)]
    exact (decide_eq_false (by omega)).symm

theorem getLsbD_setBit (pte : BitVec 64) {bit : ℕ} (bound : bit < 64) (i : ℕ) :
    (pteditPteEntrySetBit pte bit).getLsbD i = (pte.getLsbD i || decide (i = bit)) := by
  have one : (1#64 <<< bit).getLsbD i = decide (i = bit) := by
    have isPower : 1#64 <<< bit = BitVec.twoPow 64 bit := by
      rw [BitVec.twoPow_eq]
    rw [isPower, BitVec.getLsbD_twoPow]
    by_cases isBit : bit = i
    · simp [isBit, isBit ▸ bound]
    · simp [isBit, Ne.symm isBit]
  rw [pteditPteEntrySetBit, BitVec.getLsbD_or, one]

theorem toNat_pteditGetPfn (pte : BitVec 64) : (pteditGetPfn pte).toNat = Entry.frame pte := by
  have bits : pteditGetPfn pte = (pte.extractLsb' 12 40).setWidth 64 := by
    apply BitVec.eq_of_getLsbD_eq
    intro i bound
    simp only [pteditGetPfn, BitVec.getLsbD_ushiftRight, BitVec.getLsbD_and, getLsbD_pfnMask,
      BitVec.getLsbD_setWidth, BitVec.getLsbD_extractLsb']
    by_cases inside : i < 40
    · simp [inside, bound, show 12 + i < 52 by omega]
    · simp [inside, show ¬12 + i < 52 by omega]
  rw [bits, BitVec.toNat_setWidth, Entry.frame]
  exact Nat.mod_eq_of_lt (Nat.lt_of_lt_of_le (BitVec.isLt _) (by decide))

/-- The entry that the handler writes: the new frame number with the bits `PRESENT`,
`RW` and `USER` set in the old entry. -/
def installedEntry (pte pfn : BitVec 64) : BitVec 64 :=
  let pte := pteditSetPfn pte pfn
  let pte := pteditPteEntrySetBit pte pteditPageBitPresent
  let pte := pteditPteEntrySetBit pte pteditPageBitRw
  pteditPteEntrySetBit pte pteditPageBitUser

theorem getLsbD_installedEntry (pte pfn : BitVec 64) (i : ℕ) :
    (installedEntry pte pfn).getLsbD i =
      ((pteditSetPfn pte pfn).getLsbD i || decide (i < 3)) := by
  simp only [installedEntry, pteditPageBitPresent, pteditPageBitRw, pteditPageBitUser]
  rw [getLsbD_setBit _ (by decide), getLsbD_setBit _ (by decide), getLsbD_setBit _ (by decide)]
  by_cases low : i < 3
  · have cases : i = 0 ∨ i = 1 ∨ i = 2 := by omega
    rcases cases with rfl | rfl | rfl <;> simp
  · simp [low, show i ≠ 0 by omega, show i ≠ 1 by omega, show i ≠ 2 by omega]

@[simp]
theorem present_installedEntry (pte pfn : BitVec 64) :
    Entry.present (installedEntry pte pfn) = true := by
  rw [Entry.present, getLsbD_installedEntry]
  simp

theorem frame_installedEntry (pte : BitVec 64) {pfn : BitVec 64} (small : pfn.toNat < 2 ^ 40) :
    Entry.frame (installedEntry pte pfn) = pfn.toNat := by
  have bits : (installedEntry pte pfn).extractLsb' 12 40 = pfn.setWidth 40 := by
    apply BitVec.eq_of_getLsbD_eq
    intro i bound
    simp only [BitVec.getLsbD_extractLsb', bound, decide_true, Bool.true_and,
      getLsbD_installedEntry, pteditSetPfn, BitVec.getLsbD_or, BitVec.getLsbD_and,
      BitVec.getLsbD_not, getLsbD_pfnMask, BitVec.getLsbD_shiftLeft, BitVec.getLsbD_setWidth]
    simp [show 12 + i < 52 by omega, show 12 + i < 64 by omega, show ¬12 + i < 3 by omega]
  rw [Entry.frame, bits, BitVec.toNat_setWidth, Nat.mod_eq_of_lt small]

end UserLevelMmap.PageTable
