import UserLevelMmap.BufferManager.DataFile

/-!
# The program on a data file of any contents

The words of the other two managers are fresh and zero, so their tests always finish. The
states of `neovmcache` are the headers of the pages in the file: its test stops at the first
page drawn whose header does not let it be fixed.
-/

namespace UserLevelMmap.BufferManager

/-- `neovmcache_fix` can fix the page as it is found in the file. -/
structure DataFile.Usable (file : DataFile) (pid : ℕ) : Prop where
  notEvicted : PageState.isEvicted ⟨file.word (pid * pageSize)⟩ = false
  free : PageState.isMarked ⟨file.word (pid * pageSize)⟩ = true ∨
    PageState.isUnlocked ⟨file.word (pid * pageSize)⟩ = true
  second : file.word (pid * pageSize + 8) = 0

section

variable {layout : Layout} {file : DataFile} {manager : Manager} {pid : ℕ}

theorem startMemory_inside (virtMem : ℕ) (file : DataFile) {offset : ℕ}
    (inside : offset < dataSize) :
    startMemory virtMem file (virtMem + offset) = file.word offset := by
  rw [startMemory, if_pos (by omega), Nat.add_sub_cancel_left]

theorem startMemory_outside {place : ℕ}
    (outside : place < layout.virtMem ∨ layout.virtMem + dataSize ≤ place) :
    startMemory layout.virtMem file place = 0 :=
  if_neg (by omega)

theorem hash_resting (separated : layout.Separated) :
    (hash layout).Resting (startMemory layout.virtMem file) where
  startable pid below := by
    have apart := separated.bufTags
    rw [startMemory_outside]
    · exact ⟨by decide, by decide⟩
    · simp only [hash, dataSize, numPages, pageSize] at *
      omega
  ready _ _ := rfl

theorem vmcache_resting (separated : layout.Separated) :
    (vmcache layout).Resting (startMemory layout.virtMem file) where
  startable pid below := by
    have apart := separated.state
    rw [startMemory_outside]
    · exact ⟨by decide, by decide⟩
    · simp only [vmcache, dataSize, numPages, pageSize, pageStatePadding] at *
      omega
  ready _ _ := rfl

theorem usable_iff (below : pid < numPages) :
    (neovmcache layout).Fixable (startMemory layout.virtMem file) pid ↔ file.Usable pid := by
  have header : startMemory layout.virtMem file ((neovmcache layout).fixWord pid) =
      file.word (pid * pageSize) := by
    apply startMemory_inside
    simp only [dataSize, numPages, pageSize] at *
    omega
  have second : startMemory layout.virtMem file (layout.virtMem + pid * pageSize + 8) =
      file.word (pid * pageSize + 8) := by
    rw [Nat.add_assoc]
    apply startMemory_inside
    simp only [dataSize, numPages, pageSize] at *
    omega
  have ready : (neovmcache layout).ready (startMemory layout.virtMem file) pid = true ↔
      file.word (pid * pageSize + 8) = 0 := by
    rw [← second]
    exact decide_eq_true_iff
  constructor
  · rintro ⟨notEvicted, free, isReady⟩
    rw [header] at notEvicted free
    exact ⟨notEvicted, free, ready.mp isReady⟩
  · rintro ⟨notEvicted, free, isZero⟩
    rw [← header] at notEvicted free
    exact ⟨notEvicted, free, ready.mpr isZero⟩

theorem fixable_plainTest_iff (serves : manager.Serves layout) (belowPid : pid < numPages)
    {trace : List ℕ} (below : ∀ other ∈ trace, other < numPages) (test : Test) :
    manager.Fixable (plainTest layout trace test).mem pid ↔ manager.Fixable test.mem pid := by
  induction trace generalizing test with
  | nil => rfl
  | cons other rest ih =>
      have belowRest : ∀ later ∈ rest, later < numPages :=
        fun later mem => below later (List.mem_cons_of_mem _ mem)
      exact (ih belowRest _).trans
        (fixable_access_iff serves belowPid (below other List.mem_cons_self) test)

/-- The first two tests always finish; how the experiment ends depends on the third. -/
theorem experiment_eq_neovmcache (separated : layout.Separated) {test : Test}
    (restingHash : (hash layout).Resting test.mem)
    (restingVmcache : (vmcache layout).Resting test.mem) (passes count : ℕ) :
    experiment layout (passes + 1) count test =
      (neovmcache layout).performTest (passes + 1) (pageIds count 42)
        (plainTest layout (pageIds count 42 ++ pageIds count 42) test) := by
  have below := pageIds_lt count 42
  have hashTest := performTest_eq (hash_serves separated) passes below restingHash
  have resting := restingVmcache.plainTest (vmcache_serves separated) below
  have vmcacheTest := performTest_eq (vmcache_serves separated) passes below resting
  have appended : plainTest layout (pageIds count 42 ++ pageIds count 42) test =
      plainTest layout (pageIds count 42) (plainTest layout (pageIds count 42) test) :=
    List.foldl_append
  simp only [experiment, hashTest, vmcacheTest, appended]

/-- The accumulator and the memory when the file has been mapped. -/
def startTest (layout : Layout) (file : DataFile) : Test :=
  ⟨0, startMemory layout.virtMem file⟩

/-- What the three tests leave when each draws the given pages: the plain workload three
times, with the header of every page drawn unlocked. -/
structure Leaves (layout : Layout) (file : DataFile) (drawn : List ℕ) (final : Test) : Prop where
  acc : final.acc = (plainTest layout (drawn ++ drawn ++ drawn) (startTest layout file)).acc
  header : ∀ pid < numPages, final.mem (layout.page pid) =
    if pid ∈ drawn then (PageState.setUnlocked ⟨file.word (pid * pageSize)⟩).all
    else file.word (pid * pageSize)
  other : ∀ place, (∀ pid < numPages, place ≠ layout.page pid) →
    final.mem place =
      (plainTest layout (drawn ++ drawn ++ drawn) (startTest layout file)).mem place

variable {drawn : List ℕ}

theorem below_append {first second : List ℕ} (belowFirst : ∀ pid ∈ first, pid < numPages)
    (belowSecond : ∀ pid ∈ second, pid < numPages) : ∀ pid ∈ first ++ second, pid < numPages := by
  intro pid pid_mem
  rcases List.mem_append.mp pid_mem with inFirst | inSecond
  · exact belowFirst pid inFirst
  · exact belowSecond pid inSecond

theorem startTest_header (layout : Layout) (file : DataFile) (belowPid : pid < numPages) :
    (startTest layout file).mem (layout.page pid) = file.word (pid * pageSize) := by
  apply startMemory_inside
  simp only [dataSize, numPages, pageSize] at *
  omega

theorem leaves_unfixAll (below : ∀ pid ∈ drawn, pid < numPages) {final : Test}
    (isFinal : final = plainTest layout (drawn ++ drawn ++ drawn) (startTest layout file)) :
    Leaves layout file drawn
      { final with mem := (neovmcache layout).unfixAll drawn final.mem } := by
  have belowThrice := below_append (below_append below below) below
  refine ⟨?_, ?_, ?_⟩
  · rw [← isFinal]
  · intro pid belowPid
    have outside : ∀ other < numPages, layout.page pid ≠ layout.page other + 16 :=
      neovmcache_serves.fixWord pid belowPid
    have isHeader : final.mem (layout.page pid) = file.word (pid * pageSize) := by
      rw [isFinal, plainTest_of_outside belowThrice outside, startTest_header layout file belowPid]
    rw [← isHeader]
    exact unfixAll_fixWord neovmcache_apart drawn final.mem
  · intro place outside
    rw [← isFinal]
    exact unfixAll_of_outside (fun pid pid_mem => outside pid (below pid pid_mem)) final.mem

theorem usable_after_tests (belowPid : pid < numPages) (below : ∀ pid ∈ drawn, pid < numPages) :
    (neovmcache layout).Fixable
        (plainTest layout (drawn ++ drawn) (startTest layout file)).mem pid ↔
      file.Usable pid := by
  have belowTwice := below_append below below
  rw [fixable_plainTest_iff neovmcache_serves belowPid belowTwice]
  exact usable_iff belowPid

theorem thirdTest_of_usable (layout : Layout) (below : ∀ pid ∈ drawn, pid < numPages)
    (usable : ∀ pid ∈ drawn, file.Usable pid) (passes : ℕ) :
    ∃ final, (neovmcache layout).performTest (passes + 1) drawn
        (plainTest layout (drawn ++ drawn) (startTest layout file)) = .finished final ∧
      Leaves layout file drawn final := by
  have fixable : ∀ pid ∈ drawn, (neovmcache layout).Fixable
      (plainTest layout (drawn ++ drawn) (startTest layout file)).mem pid :=
    fun pid pid_mem => (usable_after_tests (below pid pid_mem) below).mpr (usable pid pid_mem)
  refine ⟨_, performTest_of_fixable neovmcache_apart passes below fixable, ?_⟩
  apply leaves_unfixAll below
  exact List.foldl_append.symm

theorem thirdTest_of_not_usable (layout : Layout) {before rest : List ℕ}
    (isDrawn : drawn = before ++ pid :: rest)
    (below : ∀ pid ∈ drawn, pid < numPages) (usable : ∀ other ∈ before, file.Usable other)
    (not_usable : ¬ file.Usable pid) (passes : ℕ) :
    (neovmcache layout).performTest (passes + 1) drawn
        (plainTest layout (drawn ++ drawn) (startTest layout file)) =
      if PageState.isEvicted ⟨file.word (pid * pageSize)⟩ then .assertionFailed
      else .spinning := by
  have belowTwice := below_append below below
  have belowPid : pid < numPages := below pid (by simp [isDrawn])
  have outside : ∀ other < numPages, layout.page pid ≠ layout.page other + 16 :=
    neovmcache_serves.fixWord pid belowPid
  have header : (plainTest layout (drawn ++ drawn) (startTest layout file)).mem
      ((neovmcache layout).fixWord pid) = file.word (pid * pageSize) :=
    (plainTest_of_outside belowTwice outside _).trans (startTest_header layout file belowPid)
  have fixable : ∀ other ∈ before, (neovmcache layout).Fixable
      (plainTest layout (drawn ++ drawn) (startTest layout file)).mem other := by
    intro other other_mem
    have belowOther : other < numPages := below other (by simp [isDrawn, other_mem])
    exact (usable_after_tests belowOther below).mpr (usable other other_mem)
  have not_fixable : ¬ (neovmcache layout).Fixable
      (plainTest layout (drawn ++ drawn) (startTest layout file)).mem pid :=
    fun now => not_usable ((usable_after_tests belowPid below).mp now)
  have stopped := performTest_of_not_fixable neovmcache_apart passes (isDrawn ▸ below) fixable
    not_fixable
  rw [← isDrawn, header] at stopped
  exact stopped

/-- The end of `main` on every data file that is long enough. It returns if every page drawn
is usable; else it stops in its third test at the first page drawn that is not, with a failed
assertion when the page is evicted and by waiting for ever when it is not. The file on disk
stays as it is. -/
theorem main_on_file {calls : Calls} (served : calls.Served layout) (disjoint : calls.Disjoint)
    (stream : calls.stream = true) (long : dataSize ≤ file.length) (passes : ℕ) :
    ((∀ pid ∈ pageIds rounds 42, file.Usable pid) →
      ∃ final, (main (passes + 1) calls (some file)).1 = .returned final ∧
        Leaves layout file (pageIds rounds 42) final) ∧
    (∀ before pid rest, pageIds rounds 42 = before ++ pid :: rest →
      (∀ other ∈ before, file.Usable other) → ¬ file.Usable pid →
        (main (passes + 1) calls (some file)).1 =
          if PageState.isEvicted ⟨file.word (pid * pageSize)⟩ then .assertionFailed
          else .spinning) ∧
    (main (passes + 1) calls (some file)).2 = some file := by
  have below := pageIds_lt rounds 42
  have separated := served.separated disjoint
  have checked : checkDataFile calls (some file) = (some file, some file) := by
    simp [checkDataFile, stream, openDataFile, served.reopen, served.stat, Nat.not_lt.mpr long]
  have isTest := main_of_served (passes + 1) served (congrArg Prod.fst checked)
  rw [experiment_eq_neovmcache separated (hash_resting separated)
    (vmcache_resting separated)] at isTest
  refine ⟨?_, ?_, ?_⟩
  · intro usable
    rcases thirdTest_of_usable layout below usable passes with ⟨final, finished, leaves⟩
    refine ⟨final, ?_, leaves⟩
    exact isTest.trans (congrArg TestResult.exit finished)
  · intro before pid rest isDrawn usable not_usable
    have stopped := thirdTest_of_not_usable layout isDrawn below usable not_usable passes
    rw [isTest]
    refine (congrArg TestResult.exit stopped).trans ?_
    split_ifs <;> rfl
  · rw [main_disk, served.state, checked]
    rfl

end

/-- A file whose pages have the given header and the payload `5`. -/
def pagesWith (header : BitVec 8) : DataFile :=
  (List.range dataSize).map (fun place =>
    if place % pageSize = 0 then header else if place % pageSize = 16 then 5 else 0)

theorem word_pagesWith (header : BitVec 8) {pid : ℕ} (offset : ℕ) (below : pid < numPages)
    (inPage : offset + 8 ≤ pageSize) :
    (pagesWith header).word (pid * pageSize + offset) =
      Bytes.readWord (fun place => if place = 0 then header else if place = 16 then 5 else 0)
        offset := by
  rw [DataFile.word, Bytes.readWord_add]
  apply Bytes.readWord_congr
  intro place _ inWord
  have inside : place < pageSize := by omega
  have inFile : pid * pageSize + place < dataSize := by
    simp only [dataSize, numPages, pageSize] at *
    omega
  simp [pagesWith, List.getD, inFile, Nat.mul_add_mod_of_lt inside]

theorem header_pagesWith (header : BitVec 8) (pid : ℕ) (below : pid < numPages) :
    (pagesWith header).word (pid * pageSize) = header.setWidth 64 := by
  have isWord := word_pagesWith header 0 below (by decide)
  rw [Nat.add_zero] at isWord
  rw [isWord]
  simp [Bytes.readWord, Bytes.readNat]

/-- On a file whose pages are marked and locked and have a payload the program returns and leaves
them unlocked in memory; a file with evicted pages ends it with the failed assertion. -/
theorem main_on_marked_pages :
    (∃ final, (main 1 allSucceed (some (pagesWith 6))).1 = .returned final ∧
      final.mem (apart.virtMem + 273 * pageSize) = 2 ∧
      (main 1 allSucceed (some (pagesWith 6))).2 = some (pagesWith 6)) ∧
    (main 1 allSucceed (some (pagesWith 1))).1 = .assertionFailed := by
  have long : ∀ header, dataSize ≤ (pagesWith header).length := by
    intro header
    rw [pagesWith, List.length_map, List.length_range]
  have drawn : pageIds rounds 42 = 273 :: pageIds 9999999 (lcgNext 42) := rfl
  constructor
  · have usable : ∀ pid ∈ pageIds rounds 42, (pagesWith 6).Usable pid := by
      intro pid pid_mem
      have below := pageIds_lt rounds 42 pid pid_mem
      have header := header_pagesWith 6 pid below
      refine ⟨?_, .inl ?_, ?_⟩
      · rw [header]
        decide
      · rw [header]
        decide
      · rw [word_pagesWith 6 8 below (by decide)]
        decide
    rcases main_on_file allSucceed_served allSucceed_disjoint rfl (long 6) 0 with
      ⟨returns, _, kept⟩
    rcases returns usable with ⟨final, returned, leaves⟩
    refine ⟨final, returned, ?_, kept⟩
    have header := leaves.header 273 (by decide)
    rw [drawn, if_pos List.mem_cons_self, header_pagesWith 6 273 (by decide), Layout.page] at header
    exact header.trans (by decide)
  · have header := header_pagesWith 1 273 (by decide)
    rcases main_on_file allSucceed_served allSucceed_disjoint rfl (long 1) 0 with
      ⟨_, stops, _⟩
    have stopped := stops [] 273 _ drawn (by simp) ?_
    · rw [header] at stopped
      exact stopped
    · rintro ⟨notEvicted, _, _⟩
      rw [header] at notEvicted
      revert notEvicted
      decide

end UserLevelMmap.BufferManager
