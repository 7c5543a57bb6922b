import Mathlib.Data.List.Induction
import UserLevelMmap.MemoryPool.Ownership

/-!
# The state after construction

The constructor pushes every page it obtains onto the list selected by the
page's address. `Built` collects what holds of the vectors after any number of
iterations; it is the base case of every invariant of a run.
-/

namespace UserLevelMmap.MemoryPool

variable {Thread : Type}

/-- The list of a pool after construction: its pages, the last one obtained first. -/
def initialFree (cfg : Config Thread) (pages : List Addr) (i : ℕ) : List Addr :=
  (pages.filter (fun page => cfg.poolIdx page = i)).reverse

/-- The vectors after the iterations of the constructor for the given pages. -/
structure Built (cfg : Config Thread) (pages : List Addr) (pool : MemoryPool Thread) : Prop where
  linked : ∀ i, Linked pool.next 0 (pool.localPools i) (initialFree cfg pages i)
  remain : ∀ i, pool.localRemainPages i = BitVec.ofNat 64 (initialFree cfg pages i).length
  perPool : ∀ i, pool.pagesPerPool i = (initialFree cfg pages i).length
  idle : ∀ thread, pool.pc thread = .idle
  nothingHeld : ∀ thread, pool.held thread = []

variable {cfg : Config Thread} {pages : List Addr}

@[simp]
theorem mem_initialFree {i : ℕ} {page : Addr} :
    page ∈ initialFree cfg pages i ↔ page ∈ pages ∧ cfg.poolIdx page = i := by
  simp [initialFree]

theorem initialFree_append (i : ℕ) (page : Addr) :
    initialFree cfg (pages ++ [page]) i =
      if cfg.poolIdx page = i then page :: initialFree cfg pages i
      else initialFree cfg pages i := by
  by_cases here : cfg.poolIdx page = i <;> simp [initialFree, here]

theorem AlignedPages.of_append {page : Addr} (aligned : AlignedPages cfg (pages ++ [page])) :
    AlignedPages cfg pages ∧ page ∉ pages ∧ page ≠ 0 := by
  have nodup := List.nodup_append.mp aligned.nodup
  refine ⟨⟨nodup.1, ?_, ?_, ?_⟩, ?_, ?_⟩
  · exact fun other mem => aligned.nonnull other (List.mem_append_left _ mem)
  · exact fun other mem => aligned.aligned other (List.mem_append_left _ mem)
  · exact fun other mem => aligned.inRange other (List.mem_append_left _ mem)
  · exact fun mem => nodup.2.2 page mem page List.mem_cons_self rfl
  · apply aligned.nonnull page
    simp

theorem Built.addPage {pool : MemoryPool Thread} {page : Addr}
    (built : Built cfg pages pool) (notMem : page ∉ pages) (page_ne : page ≠ 0) :
    Built cfg (pages ++ [page]) (addPage cfg pool page) where
  linked i := by
    have notListed : page ∉ initialFree cfg pages i := by simp [notMem]
    rw [initialFree_append]
    split_ifs with here
    · subst i
      have cleared : Linked (Function.update pool.next page 0) 0 _ _ :=
        (built.linked (cfg.poolIdx page)).write notListed
      have linked : Linked (Function.update (Function.update pool.next page 0) page
          (pool.localPools (cfg.poolIdx page))) 0 _ _ :=
        cleared.write notListed
      simpa [MemoryPool.addPage] using linked.push page_ne (by simp)
    · have elsewhere : i ≠ cfg.poolIdx page := fun same => here same.symm
      simpa [MemoryPool.addPage, elsewhere] using (built.linked i).write notListed
  remain i := by
    rw [initialFree_append]
    split_ifs with here
    · subst i
      simp [MemoryPool.addPage, built.remain, BitVec.ofNat_add]
    · have elsewhere : i ≠ cfg.poolIdx page := fun same => here same.symm
      simp [MemoryPool.addPage, elsewhere, built.remain]
  perPool i := by
    rw [initialFree_append]
    split_ifs with here
    · subst i
      simp [MemoryPool.addPage, built.perPool]
    · have elsewhere : i ≠ cfg.poolIdx page := fun same => here same.symm
      simp [MemoryPool.addPage, elsewhere, built.perPool]
  idle thread := built.idle thread
  nothingHeld thread := built.nothingHeld thread

theorem construct_built (aligned : AlignedPages cfg pages) :
    Built cfg pages (construct cfg pages) := by
  induction pages using List.reverseRecOn with
  | nil => exact ⟨fun _ => rfl, fun _ => rfl, fun _ => rfl, fun _ => rfl, fun _ => rfl⟩
  | append_singleton pages page ih =>
      rcases aligned.of_append with ⟨alignedPages, notMem, page_ne⟩
      rw [construct, List.foldl_append]
      exact (ih alignedPages).addPage notMem page_ne

theorem Built.owned_eq_nil {pool : MemoryPool Thread} (built : Built cfg pages pool)
    (thread : Thread) : pool.owned thread = [] := by
  simp [owned, built.idle, built.nothingHeld]

theorem Built.tracks {pool : MemoryPool Thread} (built : Built cfg pages pool)
    (nodup : pages.Nodup) : Tracks pool (initialFree cfg pages) where
  linked := built.linked
  exclusive :=
    { nodup := by
        rintro (i | thread)
        · exact List.nodup_reverse.mpr (nodup.filter _)
        · simp [ledger, built.owned_eq_nil]
      disjoint := by
        rintro (i | thread) (j | other) distinct page mem memOther
        · simp only [ledger, mem_initialFree] at mem memOther
          apply distinct
          rw [← mem.2, ← memOther.2]
        all_goals simp_all [ledger, built.owned_eq_nil] }
  owned_nonnull := by simp [built.owned_eq_nil]
  stored := by simp [built.idle]
  loaded := by simp [built.idle, Pc.LoadedPage]

theorem Built.records_iff {pool : MemoryPool Thread} (built : Built cfg pages pool)
    (page : Addr) :
    (pool.ledger (initialFree cfg pages)).Records page ↔ page ∈ pages := by
  constructor
  · rintro ⟨i | thread, mem⟩
    · exact (mem_initialFree.mp mem).1
    · simp [ledger, built.owned_eq_nil] at mem
  · intro mem
    exact ⟨.free (cfg.poolIdx page), mem_initialFree.mpr ⟨mem, rfl⟩⟩

end UserLevelMmap.MemoryPool
