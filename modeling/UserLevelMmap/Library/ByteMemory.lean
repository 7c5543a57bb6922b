import Mathlib.Algebra.Order.Ring.Int
import Mathlib.Data.Nat.Notation
import Mathlib.Logic.Function.Basic

/-!
# Byte-addressed memory

Memory is a function from addresses to bytes. Numbers of several bytes are
stored with the least significant byte first; a word has eight bytes. The lemmas
say what a write does to a later read of the same or of another place.
-/

namespace UserLevelMmap

/-- The bytes of a memory by address. -/
abbrev Bytes := ℕ → BitVec 8

namespace Bytes

/-- The number stored in `count` bytes from an address on. -/
def readNat (mem : Bytes) : ℕ → ℕ → ℕ
  | _, 0 => 0
  | address, count + 1 => (mem address).toNat + 256 * readNat mem (address + 1) count

/-- Store a number in `count` bytes from an address on. -/
def writeNat (mem : Bytes) (address count value : ℕ) : Bytes :=
  fun other =>
    if address ≤ other ∧ other < address + count then
      BitVec.ofNat 8 (value / 256 ^ (other - address))
    else
      mem other

variable {mem mem' : Bytes} {address other count value : ℕ}

theorem readNat_congr
    (agree : ∀ place, address ≤ place → place < address + count → mem' place = mem place) :
    readNat mem' address count = readNat mem address count := by
  induction count generalizing address with
  | zero => rfl
  | succ count ih =>
      have agreeRest : ∀ place, address + 1 ≤ place → place < address + 1 + count →
          mem' place = mem place :=
        fun place low high => agree place (by omega) (by omega)
      rw [readNat, readNat, ih agreeRest, agree address (by omega) (by omega)]

theorem readNat_add (mem : Bytes) (base address count : ℕ) :
    readNat mem (base + address) count =
      readNat (fun place => mem (base + place)) address count := by
  induction count generalizing address with
  | zero => rfl
  | succ count ih => rw [readNat, readNat, Nat.add_assoc, ih]

theorem writeNat_of_outside (outside : other < address ∨ address + count ≤ other) :
    writeNat mem address count value other = mem other :=
  if_neg (by omega)

theorem readNat_writeNat_self :
    readNat (writeNat mem address count value) address count = value % 256 ^ count := by
  induction count generalizing mem address value with
  | zero => simp [readNat, Nat.mod_one]
  | succ count ih =>
      have shifted : ∀ place, address + 1 ≤ place → place < address + 1 + count →
          writeNat mem address (count + 1) value place =
            writeNat mem (address + 1) count (value / 256) place := by
        intro place low high
        have offset : place - address = place - (address + 1) + 1 := by omega
        rw [writeNat, writeNat, if_pos (by omega), if_pos ⟨low, high⟩, offset,
          Nat.pow_succ', Nat.div_div_eq_div_mul]
      have digits : value % 256 ^ (count + 1) =
          value % 256 + 256 * (value / 256 % 256 ^ count) := by
        rw [Nat.pow_succ', Nat.mod_mul]
      rw [readNat, readNat_congr shifted, ih, writeNat, if_pos (by omega), Nat.sub_self,
        BitVec.toNat_ofNat, Nat.pow_zero, Nat.div_one, digits]

theorem readNat_writeNat_of_disjoint {width : ℕ}
    (disjoint : other + width ≤ address ∨ address + count ≤ other) :
    readNat (writeNat mem address count value) other width = readNat mem other width := by
  apply readNat_congr
  intro place low high
  apply writeNat_of_outside
  omega

/-- The word of eight bytes at an address. -/
def readWord (mem : Bytes) (address : ℕ) : BitVec 64 :=
  BitVec.ofNat 64 (readNat mem address 8)

/-- Store a word of eight bytes at an address. -/
def writeWord (mem : Bytes) (address : ℕ) (word : BitVec 64) : Bytes :=
  writeNat mem address 8 word.toNat

theorem readWord_congr
    (agree : ∀ place, address ≤ place → place < address + 8 → mem' place = mem place) :
    readWord mem' address = readWord mem address := by
  rw [readWord, readWord, readNat_congr agree]

theorem readWord_add (mem : Bytes) (base address : ℕ) :
    readWord mem (base + address) = readWord (fun place => mem (base + place)) address := by
  rw [readWord, readWord, readNat_add]

@[simp]
theorem readWord_writeWord_self (word : BitVec 64) :
    readWord (writeWord mem address word) address = word := by
  rw [readWord, writeWord, readNat_writeNat_self]
  have bound : word.toNat < 256 ^ 8 := word.isLt
  rw [Nat.mod_eq_of_lt bound, BitVec.ofNat_toNat, BitVec.setWidth_eq]

theorem readWord_writeWord_of_disjoint {word : BitVec 64}
    (disjoint : other + 8 ≤ address ∨ address + 8 ≤ other) :
    readWord (writeWord mem address word) other = readWord mem other := by
  rw [readWord, readWord, writeWord, readNat_writeNat_of_disjoint disjoint]

theorem readNat_lt (mem : Bytes) (address count : ℕ) : readNat mem address count < 256 ^ count := by
  induction count generalizing address with
  | zero => simp [readNat]
  | succ count ih =>
      have bound := ih (address + 1)
      have byte := (mem address).isLt
      rw [readNat, Nat.pow_succ']
      omega

theorem readNat_digit {place : ℕ} (bound : place < count) :
    readNat mem address count / 256 ^ place % 256 = (mem (address + place)).toNat := by
  induction count generalizing address place with
  | zero => omega
  | succ count ih =>
      have byte := (mem address).isLt
      cases place with
      | zero =>
          rw [readNat, Nat.pow_zero, Nat.div_one]
          simp only [Nat.add_zero]
          omega
      | succ place =>
          have rest : ((mem address).toNat + 256 * readNat mem (address + 1) count) / 256 =
              readNat mem (address + 1) count := by omega
          have isPlace : address + (place + 1) = address + 1 + place := by omega
          rw [readNat, Nat.pow_succ', ← Nat.div_div_eq_div_mul, rest, ih (by omega), isPlace]

/-- Storing the word that is there changes nothing. -/
@[simp]
theorem writeWord_readWord : writeWord mem address (readWord mem address) = mem := by
  funext other
  by_cases inside : address ≤ other ∧ other < address + 8
  · have bound : readNat mem address 8 < 2 ^ 64 := readNat_lt mem address 8
    have isPlace : address + (other - address) = other := by omega
    have digit : readNat mem address 8 / 256 ^ (other - address) % 256 = (mem other).toNat := by
      rw [readNat_digit (by omega), isPlace]
    rw [writeWord, readWord, BitVec.toNat_ofNat, Nat.mod_eq_of_lt bound, writeNat, if_pos inside]
    apply BitVec.eq_of_toNat_eq
    rw [BitVec.toNat_ofNat]
    exact digit
  · exact writeNat_of_outside (by omega)

/-- The last of two words stored at one place stays. -/
@[simp]
theorem writeWord_writeWord {first second : BitVec 64} :
    writeWord (writeWord mem address first) address second = writeWord mem address second := by
  funext other
  unfold writeWord writeNat
  split_ifs <;> rfl

theorem writeWord_of_outside {word : BitVec 64}
    (outside : other < address ∨ address + 8 ≤ other) :
    writeWord mem address word other = mem other :=
  writeNat_of_outside outside

end Bytes

end UserLevelMmap
