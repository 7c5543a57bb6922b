import Mathlib.Data.List.Basic

/-!
# Semaphores for readers and writers

A semaphore that one writer or any number of readers hold. `acquire` is partial: it is
`none` while the caller has to wait. The semaphore does not count how often its writer has
acquired it, so a writer that asks for it once more waits for itself.

Nothing in this file is specific to the programs verified with it.
-/

namespace UserLevelMmap

universe u

/-- How a semaphore is held. -/
inductive Mode where
  | read
  | write
  deriving DecidableEq, Repr

/-- A semaphore with its holders. -/
structure Rwsem (Owner : Type u) where
  writer : Option Owner
  readers : List Owner
  exclusive : writer.isSome = true → readers = []

namespace Rwsem

variable {Owner : Type u}

def free : Rwsem Owner where
  writer := none
  readers := []
  exclusive := fun _ => rfl

/-- Acquire the semaphore, if nobody holds it in a mode that conflicts. -/
def acquire (sem : Rwsem Owner) (mode : Mode) (owner : Owner) : Option (Rwsem Owner) :=
  match sem.writer, sem.readers, mode with
  | some _, _, _ => none
  | none, readers, .read => some ⟨none, owner :: readers, by simp⟩
  | none, [], .write => some ⟨some owner, [], fun _ => rfl⟩
  | none, _ :: _, .write => none

/-- The owner holds the semaphore in the mode. -/
def Holds (sem : Rwsem Owner) (mode : Mode) (owner : Owner) : Prop :=
  match mode with
  | .read => owner ∈ sem.readers
  | .write => sem.writer = some owner

variable {sem sem' : Rwsem Owner} {mode mode' : Mode} {owner other : Owner}

theorem Holds.eq_of_write (held : sem.Holds .write owner) (held' : sem.Holds mode other) :
    other = owner ∧ mode = .write := by
  have isWriter : sem.writer = some owner := held
  have noReaders := sem.exclusive (by rw [isWriter]; rfl)
  cases mode with
  | read =>
      rw [Holds, noReaders] at held'
      exact absurd held' List.not_mem_nil
  | write =>
      have isWriter' : sem.writer = some other := held'
      rw [isWriter, Option.some.injEq] at isWriter'
      exact ⟨isWriter'.symm, rfl⟩

/-- Whoever asks for a semaphore with a writer waits, also the writer itself. -/
theorem Holds.acquire_eq_none (held : sem.Holds .write owner) (mode : Mode) (other : Owner) :
    sem.acquire mode other = none := by
  have isWriter : sem.writer = some owner := held
  unfold acquire
  rw [isWriter]

theorem acquire_holds (acquired : sem.acquire mode owner = some sem') : sem'.Holds mode owner := by
  unfold acquire at acquired
  split at acquired
  · contradiction
  · rw [Option.some.injEq] at acquired
    subst acquired
    exact List.mem_cons_self
  · rw [Option.some.injEq] at acquired
    subst acquired
    rfl
  · contradiction

theorem Holds.acquire (held : sem.Holds mode' other)
    (acquired : sem.acquire mode owner = some sem') :
    sem'.Holds mode' other := by
  cases mode' with
  | write =>
      rw [held.acquire_eq_none] at acquired
      contradiction
  | read =>
      have isReader : other ∈ sem.readers := held
      unfold Rwsem.acquire at acquired
      split at acquired
      · contradiction
      · next readers_eq =>
        rw [Option.some.injEq] at acquired
        subst acquired
        exact List.mem_cons_of_mem _ isReader
      · next readers_eq =>
        rw [readers_eq] at isReader
        exact absurd isReader List.not_mem_nil
      · contradiction

variable [DecidableEq Owner]

/-- Give the semaphore back. -/
def release (sem : Rwsem Owner) (mode : Mode) (owner : Owner) : Rwsem Owner :=
  match mode with
  | .read => ⟨sem.writer, sem.readers.erase owner, fun held => by simp [sem.exclusive held]⟩
  | .write => ⟨none, sem.readers, by simp⟩

/-- The other holders keep the semaphore when one of them gives it back. -/
theorem Holds.release (held : sem.Holds mode' other) (releases : sem.Holds mode owner)
    (distinct : other ≠ owner) : (sem.release mode owner).Holds mode' other := by
  cases mode with
  | read =>
      cases mode' with
      | read => exact (List.mem_erase_of_ne distinct).mpr held
      | write => exact held
  | write => exact absurd (releases.eq_of_write held).1 distinct

end Rwsem

end UserLevelMmap
