import UserLevelMmap.BufferManager.Fixable
import UserLevelMmap.Library.ByteMemory

/-!
# The data file and the whole program

`main` maps the words of the managers and the data file, and then performs the three tests.
`check_data_file` creates the file when there is none. Every system call may fail, and what
a failed run leaves of the file is found by the next run of the program; so the file is the
state of a system whose steps are whole runs of `main`.
-/

namespace UserLevelMmap.BufferManager

/-! ## The data file -/

/-- The bytes of the data file. -/
abbrev DataFile := List (BitVec 8)

/-- `NumPages * PageSize`. -/
def dataSize : ℕ := numPages * pageSize

namespace DataFile

/-- The word at an offset, as a mapping of the file shows it. -/
def word (file : DataFile) (offset : ℕ) : BitVec 64 :=
  Bytes.readWord (fun place => file.getD place 0) offset

/-- `lseek(fd, offset, SEEK_SET)` and `write(fd, "", 1)`: what is skipped behind the end of
the file reads as zeros. -/
def writeZero (file : DataFile) (offset : ℕ) : DataFile :=
  (file ++ List.replicate (offset + 1 - file.length) 0).set offset 0

end DataFile

/-- The outcomes of the system calls in one run of `main`. -/
structure Calls where
  /-- The `mmap` of `state`. -/
  state : Option ℕ
  /-- The `mmap` of `buf_tags`. -/
  bufTags : Option ℕ
  /-- The stream is good when there is a file. -/
  stream : Bool
  /-- `open(data_file.c_str(), O_RDWR | O_CREAT, 0666)`. -/
  create : Bool
  seek : Bool
  write : Bool
  /-- `open(data_file.c_str(), O_RDWR)`. -/
  reopen : Bool
  stat : Bool
  /-- The `mmap` of the data file, when it is called with an open file. -/
  virtMem : Option ℕ
  advise : Bool
  lock : Bool

/-- The end of `check_data_file`: the file it returns open, if any. -/
def openDataFile (calls : Calls) (disk : Option DataFile) : Option DataFile :=
  match disk with
  | none => none
  | some file =>
      if !calls.reopen then none
      else if !calls.stat then none
      else if file.length < dataSize then none
      else some file

/-- `check_data_file`: the file it returns open, if any, and the file that is then on disk. -/
def checkDataFile (calls : Calls) (disk : Option DataFile) :
    Option DataFile × Option DataFile :=
  if !(disk.isSome && calls.stream) then
    if !calls.create then (none, disk)
    else
      let file := disk.getD []
      if !calls.seek then (none, some file)
      else if !calls.write then (none, some file)
      else
        let file := file.writeZero (dataSize - 1)
        (openDataFile calls (some file), some file)
  else (openDataFile calls disk, disk)

/-- How a run of `main` ends. -/
inductive Exit where
  /-- `exit(EXIT_FAILURE)`. -/
  | failure
  /-- `return -1`. -/
  | minusOne
  /-- An access to `MAP_FAILED`. -/
  | crashed
  | assertionFailed
  | spinning
  /-- `return 0`. -/
  | returned (test : Test)

def TestResult.exit : TestResult → Exit
  | .finished test => .returned test
  | .assertionFailed => .assertionFailed
  | .spinning => .spinning

/-- The loop that fills `buf_table`; a key that is missing has a null pointer. -/
def initBufTable (virtMem : ℕ) : ℕ → ℕ :=
  (List.range numPages).foldl
    (fun table i => Function.update table i (virtMem + pageSize * i)) (fun _ => 0)

/-- The private mappings at their start: anonymous ones are zero, the other shows the file. -/
def startMemory (virtMem : ℕ) (file : DataFile) : Memory :=
  fun place =>
    if virtMem ≤ place ∧ place < virtMem + dataSize then file.word (place - virtMem) else 0

/-- `N`. -/
def rounds : ℕ := 10000000

/-- `main`: how it ends, and the file that is then on disk. The loop of every `fix` may be
passed through a given number of times. -/
def main (passes : ℕ) (calls : Calls) (disk : Option DataFile) : Exit × Option DataFile :=
  match calls.state with
  | none => (.failure, disk)
  | some state =>
      -- The check behind the mapping of `buf_tags` looks at `state` again and never fires.
      match checkDataFile calls disk with
      | (none, disk) => (.minusOne, disk)
      | (some file, disk) =>
          match calls.virtMem with
          | none => (.minusOne, disk)
          | some virtMem =>
              if !calls.advise then (.minusOne, disk)
              else if !calls.lock then (.minusOne, disk)
              else
                match calls.bufTags with
                | none => (.crashed, disk)
                | some bufTags =>
                    let layout : Layout := ⟨state, bufTags, virtMem, initBufTable virtMem⟩
                    let test : Test := ⟨0, startMemory virtMem file⟩
                    ((experiment layout passes rounds test).exit, disk)

/-- The run gets to its tests when it has opened a file, with the given pointers. -/
structure Calls.Served (calls : Calls) (layout : Layout) : Prop where
  state : calls.state = some layout.state
  bufTags : calls.bufTags = some layout.bufTags
  virtMem : calls.virtMem = some layout.virtMem
  reopen : calls.reopen = true
  stat : calls.stat = true
  advise : calls.advise = true
  lock : calls.lock = true
  bufTable : layout.bufTable = initBufTable layout.virtMem

/-- What `mmap` promises: the ranges of the mappings do not overlap. -/
def Calls.Disjoint (calls : Calls) : Prop :=
  ∀ {state bufTags virtMem : ℕ}, calls.state = some state → calls.bufTags = some bufTags →
    calls.virtMem = some virtMem →
      (state + numPages * pageStatePadding ≤ virtMem ∨ virtMem + dataSize ≤ state) ∧
      (bufTags + numPages * 8 ≤ virtMem ∨ virtMem + dataSize ≤ bufTags)

/-- The run ends before its first test is over. -/
def Exit.Aborted : Exit → Prop
  | .failure => True
  | .minusOne => True
  | .crashed => True
  | .assertionFailed => False
  | .spinning => False
  | .returned _ => False

theorem initBufTable_of_lt (virtMem : ℕ) {pid : ℕ} (below : pid < numPages) :
    initBufTable virtMem pid = virtMem + pageSize * pid := by
  have filled : ∀ count, ∀ pid < count, (List.range count).foldl
      (fun table i => Function.update table i (virtMem + pageSize * i)) (fun _ => 0) pid =
        virtMem + pageSize * pid := by
    intro count
    induction count with
    | zero => exact fun pid below => absurd below (Nat.not_lt_zero pid)
    | succ count ih =>
        intro pid below
        rw [List.range_succ, List.foldl_append, List.foldl_cons, List.foldl_nil]
        by_cases last : pid = count
        · rw [last, Function.update_self]
        · rw [Function.update_of_ne last, ih pid (by omega)]
  exact filled numPages pid below

section

variable {calls : Calls} {layout : Layout} {disk : Option DataFile} {file : DataFile}

theorem Calls.Served.separated (served : calls.Served layout) (disjoint : calls.Disjoint) :
    layout.Separated where
  state := (disjoint served.state served.bufTags served.virtMem).1
  bufTags := (disjoint served.state served.bufTags served.virtMem).2
  bufTable pid below := by
    rw [served.bufTable, initBufTable_of_lt _ below, Layout.page, Nat.mul_comm]

theorem main_of_served (passes : ℕ) (served : calls.Served layout)
    (opened : (checkDataFile calls disk).1 = some file) :
    (main passes calls disk).1 =
      (experiment layout passes rounds ⟨0, startMemory layout.virtMem file⟩).exit := by
  have isChecked : checkDataFile calls disk = (some file, (checkDataFile calls disk).2) := by
    rw [← opened]
  simp only [main, served.state, served.bufTags, served.virtMem, served.advise, served.lock]
  rw [isChecked]
  simp only [← served.bufTable]
  rfl

theorem openDataFile_of_some (opened : openDataFile calls disk = some file) :
    disk = some file ∧ calls.reopen = true ∧ calls.stat = true ∧ dataSize ≤ file.length := by
  unfold openDataFile at opened
  split at opened
  · contradiction
  · split_ifs at opened with closed unknown short
    simp only [Option.some.injEq] at opened
    subst opened
    exact ⟨rfl, by simpa using closed, by simpa using unknown, by omega⟩

/-- The run gets to writing the last byte of the file, and writes it. -/
structure Extends (disk : Option DataFile) (calls : Calls) : Prop where
  mapped : calls.state.isSome = true
  notGood : (disk.isSome && calls.stream) = false
  create : calls.create = true
  seek : calls.seek = true
  write : calls.write = true

/-- `check_data_file` finds the file, extends it, or gives up. -/
theorem checkDataFile_cases (calls : Calls) (disk : Option DataFile) :
    (disk.isSome = true ∧ calls.stream = true ∧
        checkDataFile calls disk = (openDataFile calls disk, disk)) ∨
      ((disk.isSome && calls.stream) = false ∧ calls.create = true ∧ calls.seek = true ∧
        calls.write = true ∧
        checkDataFile calls disk =
          (openDataFile calls (some ((disk.getD []).writeZero (dataSize - 1))),
            some ((disk.getD []).writeZero (dataSize - 1)))) ∨
      ((disk.isSome && calls.stream) = false ∧
        ¬ (calls.create = true ∧ calls.seek = true ∧ calls.write = true) ∧
        ((checkDataFile calls disk) = (none, disk) ∨
          (checkDataFile calls disk) = (none, some (disk.getD [])))) := by
  by_cases good : (disk.isSome && calls.stream) = true
  · left
    rw [Bool.and_eq_true] at good
    exact ⟨good.1, good.2, by simp [checkDataFile, good.1, good.2]⟩
  · rw [Bool.not_eq_true] at good
    right
    by_cases create : calls.create = true
    · by_cases seek : calls.seek = true
      · by_cases write : calls.write = true
        · exact .inl ⟨good, create, seek, write, by simp [checkDataFile, good, create, seek, write]⟩
        · refine .inr ⟨good, fun all => write all.2.2, .inr ?_⟩
          simp [checkDataFile, good, create, seek, write]
      · refine .inr ⟨good, fun all => seek all.2.1, .inr ?_⟩
        simp [checkDataFile, good, create, seek]
    · refine .inr ⟨good, fun all => create all.1, .inl ?_⟩
      simp [checkDataFile, good, create]

/-- A run leaves the disk as `check_data_file` leaves it, and gets to its tests only with all
its mappings and an open file. -/
theorem main_cases (passes : ℕ) (calls : Calls) (disk : Option DataFile) :
    (main passes calls disk).2 =
        (if calls.state.isSome then (checkDataFile calls disk).2 else disk) ∧
      ((main passes calls disk).1.Aborted ∨
        ∃ state bufTags virtMem file, calls.state = some state ∧ calls.bufTags = some bufTags ∧
          calls.virtMem = some virtMem ∧ calls.advise = true ∧ calls.lock = true ∧
          (checkDataFile calls disk).1 = some file) := by
  unfold main
  cases calls.state with
  | none => exact ⟨rfl, .inl trivial⟩
  | some state =>
      rcases checkDataFile calls disk with ⟨opened, after⟩
      cases opened with
      | none => exact ⟨rfl, .inl trivial⟩
      | some file =>
          cases calls.virtMem with
          | none => exact ⟨rfl, .inl trivial⟩
          | some virtMem =>
              cases calls.advise with
              | false => exact ⟨rfl, .inl trivial⟩
              | true =>
                  cases calls.lock with
                  | false => exact ⟨rfl, .inl trivial⟩
                  | true =>
                      cases calls.bufTags with
                      | none => exact ⟨rfl, .inl trivial⟩
                      | some bufTags =>
                          exact ⟨rfl, .inr ⟨state, bufTags, virtMem, file, rfl, rfl, rfl, rfl,
                            rfl, rfl⟩⟩

theorem main_disk (passes : ℕ) (calls : Calls) (disk : Option DataFile) :
    (main passes calls disk).2 =
      if calls.state.isSome then (checkDataFile calls disk).2 else disk :=
  (main_cases passes calls disk).1

theorem checkDataFile_opened (opened : (checkDataFile calls disk).1 = some file) :
    (checkDataFile calls disk).2 = some file ∧ calls.reopen = true ∧ calls.stat = true ∧
      dataSize ≤ file.length := by
  rcases checkDataFile_cases calls disk with ⟨_, _, checked⟩ | ⟨_, _, _, _, checked⟩ |
    ⟨_, _, checked | checked⟩
  · rw [checked] at opened ⊢
    exact openDataFile_of_some opened
  · rw [checked] at opened ⊢
    exact openDataFile_of_some opened
  · rw [checked] at opened
    contradiction
  · rw [checked] at opened
    contradiction

theorem main_aborted (passes : ℕ) (not_served : ∀ (layout : Layout) (file : DataFile),
      calls.Served layout → (checkDataFile calls disk).1 ≠ some file) :
    (main passes calls disk).1.Aborted := by
  rcases (main_cases passes calls disk).2 with
    aborted | ⟨state, bufTags, virtMem, file, isState, isTags, isMem, advise, lock, opened⟩
  · exact aborted
  · rcases checkDataFile_opened opened with ⟨_, reopen, stat, _⟩
    refine absurd opened (not_served ⟨state, bufTags, virtMem, initBufTable virtMem⟩ file ?_)
    exact ⟨isState, isTags, isMem, reopen, stat, advise, lock, by dsimp only⟩

end

/-! ## Runs of the program, one after the other -/

/-- A run of `main` as a step of the disk. -/
def mainStep (passes : ℕ) : Transition (Option DataFile) Calls :=
  fun disk calls => some (main passes calls disk).2

/-- Some earlier run has written the last byte of the file. -/
def Extended (past : History (Option DataFile) Calls) : Prop :=
  ∃ moment ∈ past, Extends moment.1 moment.2

/-- The file is as long as the mapping of it. -/
def Full (disk : Option DataFile) : Prop :=
  ∃ file, disk = some file ∧ dataSize ≤ file.length

/-- Every byte that is on disk is zero. -/
def Zeros (disk : Option DataFile) : Prop :=
  ∀ file, disk = some file → ∀ byte ∈ file, byte = 0

namespace DataFile

theorem length_writeZero (file : DataFile) (offset : ℕ) :
    (file.writeZero offset).length = max file.length (offset + 1) := by
  rw [writeZero, List.length_set, List.length_append, List.length_replicate]
  omega

theorem writeZero_zeros {file : DataFile} (zeros : ∀ byte ∈ file, byte = 0) (offset : ℕ) :
    ∀ byte ∈ file.writeZero offset, byte = 0 := by
  intro byte byte_mem
  rcases List.mem_or_eq_of_mem_set byte_mem with older | isZero
  · rcases List.mem_append.mp older with inFile | inGap
    · exact zeros byte inFile
    · exact List.eq_of_mem_replicate inGap
  · exact isZero

theorem word_of_zeros {file : DataFile} (zeros : ∀ byte ∈ file, byte = 0) (offset : ℕ) :
    file.word offset = 0 := by
  have isZero : (fun place => file.getD place 0) = fun _ => 0 := by
    funext place
    rw [List.getD_eq_getElem?_getD]
    cases isByte : file[place]? with
    | none => rfl
    | some byte => exact zeros byte (List.mem_of_getElem? isByte)
  rw [word, isZero]
  simp [Bytes.readWord, Bytes.readNat]

end DataFile

section

variable {calls : Calls} {disk : Option DataFile}

theorem zeros_getD (zeros : Zeros disk) : ∀ byte ∈ disk.getD [], byte = 0 := by
  cases disk with
  | none => simp
  | some file => exact zeros file rfl

theorem full_writeZero (file : DataFile) : Full (some (file.writeZero (dataSize - 1))) := by
  refine ⟨_, rfl, ?_⟩
  have positive : 0 < dataSize := by decide
  rw [DataFile.length_writeZero]
  omega

theorem full_some_getD : Full (some (disk.getD [])) ↔ Full disk := by
  cases disk with
  | none =>
      have positive : 0 < dataSize := by decide
      simp only [Full, Option.getD_none, Option.some.injEq, exists_eq_left', List.length_nil,
        reduceCtorEq, false_and, exists_false, iff_false]
      omega
  | some file => rfl

theorem not_extends_of_found (found : disk.isSome = true) (stream : calls.stream = true) :
    ¬ Extends disk calls := by
  intro extending
  have notGood := extending.notGood
  simp [found, stream] at notGood

theorem not_extends_of_interrupted (disk : Option DataFile)
    (interrupted : ¬ (calls.create = true ∧ calls.seek = true ∧ calls.write = true)) :
    ¬ Extends disk calls :=
  fun extending => interrupted ⟨extending.create, extending.seek, extending.write⟩

/-- After a run the file is full if and only if it was before or the run has extended it. -/
theorem full_main_iff (passes : ℕ) :
    Full (main passes calls disk).2 ↔ Full disk ∨ Extends disk calls := by
  rw [main_disk]
  by_cases mapped : calls.state.isSome = true
  · rw [if_pos mapped]
    rcases checkDataFile_cases calls disk with ⟨found, stream, checked⟩ |
      ⟨notGood, create, seek, write, checked⟩ | ⟨_, interrupted, checked⟩
    · have not_extends := not_extends_of_found found stream
      simp [checked, not_extends]
    · rw [checked]
      have extending : Extends disk calls := ⟨mapped, notGood, create, seek, write⟩
      exact ⟨fun _ => .inr extending, fun _ => full_writeZero _⟩
    · have not_extends := not_extends_of_interrupted disk interrupted
      rcases checked with checked | checked
      · simp [checked, not_extends]
      · simp [checked, not_extends, full_some_getD]
  · have not_extends : ¬ Extends disk calls := fun extending => mapped extending.mapped
    simp [mapped, not_extends]

theorem zeros_main (zeros : Zeros disk) (passes : ℕ) : Zeros (main passes calls disk).2 := by
  have zerosFile := zeros_getD zeros
  rw [main_disk]
  by_cases mapped : calls.state.isSome = true
  · rw [if_pos mapped]
    rcases checkDataFile_cases calls disk with ⟨_, _, checked⟩ | ⟨_, _, _, _, checked⟩ |
      ⟨_, _, checked | checked⟩
    · rw [checked]
      exact zeros
    · rw [checked]
      intro file isFile
      simp only [Option.some.injEq] at isFile
      exact isFile ▸ DataFile.writeZero_zeros zerosFile _
    · rw [checked]
      exact zeros
    · rw [checked]
      intro file isFile
      simp only [Option.some.injEq] at isFile
      exact isFile ▸ zerosFile
  · rw [if_neg mapped]
    exact zeros

/-- The file is full if and only if an earlier run has extended it, and it has only zeros. -/
theorem ownFile_of_run {passes : ℕ} {past : History (Option DataFile) Calls}
    (run : Run (mainStep passes) none past disk) : (Full disk ↔ Extended past) ∧ Zeros disk := by
  induction run with
  | start => simp [Full, Extended, Zeros]
  | step run stepped ih =>
      simp only [mainStep, Option.some.injEq] at stepped
      subst stepped
      refine ⟨?_, zeros_main ih.2 passes⟩
      rw [full_main_iff, ih.1]
      simp [Extended, or_comm]

theorem openDataFile_isSome {layout : Layout} (served : calls.Served layout) :
    (∃ file, openDataFile calls disk = some file) ↔ Full disk := by
  constructor
  · rintro ⟨file, opened⟩
    rcases openDataFile_of_some opened with ⟨isFile, _, _, long⟩
    exact ⟨file, isFile, long⟩
  · rintro ⟨file, rfl, long⟩
    refine ⟨file, ?_⟩
    simp [openDataFile, served.reopen, served.stat, Nat.not_lt.mpr long]

theorem checkDataFile_isSome {layout : Layout} (served : calls.Served layout) :
    (∃ file, (checkDataFile calls disk).1 = some file) ↔
      (calls.stream = true ∧ Full disk) ∨ Extends disk calls := by
  rcases checkDataFile_cases calls disk with ⟨found, stream, checked⟩ |
    ⟨notGood, create, seek, write, checked⟩ | ⟨notGood, interrupted, checked⟩
  · have not_extends := not_extends_of_found found stream
    rw [checked, openDataFile_isSome served]
    simp [stream, not_extends]
  · have mapped : calls.state.isSome = true := by rw [served.state]; rfl
    rw [checked, openDataFile_isSome served]
    refine ⟨fun _ => .inr ⟨mapped, notGood, create, seek, write⟩, fun _ => full_writeZero _⟩
  · have not_extends := not_extends_of_interrupted disk interrupted
    have not_full : ¬ (calls.stream = true ∧ Full disk) := by
      rintro ⟨stream, file, rfl, _⟩
      simp [stream] at notGood
    rcases checked with checked | checked
    · simp [checked, not_extends, not_full]
    · simp [checked, not_extends, not_full]

/-- The plain workload keeps a memory of zeros. -/
theorem plainTest_zeros (layout : Layout) (trace : List ℕ) :
    plainTest layout trace ⟨0, fun _ => 0⟩ = ⟨0, fun _ => 0⟩ := by
  induction trace with
  | nil => rfl
  | cons pid rest ih =>
      have access : Test.access ⟨0, fun _ => 0⟩ (layout.page pid) = ⟨0, fun _ => 0⟩ := by
        have sum : (0 : BitVec 64) + 0 = 0 := by decide
        simp only [Test.access, sum, Test.mk.injEq, true_and]
        exact Function.update_eq_self (layout.page pid + 16) (fun _ => (0 : BitVec 64))
      rw [plainTest, List.foldl_cons, access]
      exact ih

theorem startWords_zeros (layout : Layout) : StartWords layout (fun _ => 0) := by
  have startable : PageState.Startable ⟨0⟩ := ⟨by decide, by decide⟩
  exact ⟨fun _ _ => startable, fun _ _ => startable, fun _ _ => startable, fun _ _ => rfl⟩

theorem main_of_zeros {layout : Layout} {file : DataFile} (served : calls.Served layout)
    (disjoint : calls.Disjoint) (opened : (checkDataFile calls disk).1 = some file)
    (zeros : ∀ byte ∈ file, byte = 0) (passes : ℕ) :
    (main (passes + 1) calls disk).1 = .returned ⟨0, fun _ => 0⟩ := by
  have isZero : startMemory layout.virtMem file = fun _ => 0 := by
    funext place
    simp only [startMemory, DataFile.word_of_zeros zeros, ite_self]
  rw [main_of_served (passes + 1) served opened, isZero,
    experiment_eq (served.separated disjoint) (startWords_zeros layout), plainTest_zeros]
  rfl

/-- All calls of the run succeed that it makes, and the file is there: an earlier run has
extended it and the stream finds it, or this run extends it. -/
def Succeeds (past : History (Option DataFile) Calls) (disk : Option DataFile) (calls : Calls) :
    Prop :=
  (∃ layout, calls.Served layout) ∧
    ((calls.stream = true ∧ Extended past) ∨ Extends disk calls)

theorem run_on_own_file {passes : ℕ} {past : History (Option DataFile) Calls}
    (run : Run (mainStep (passes + 1)) none past disk) (disjoint : calls.Disjoint) :
    (Succeeds past disk calls →
        (main (passes + 1) calls disk).1 = .returned ⟨0, fun _ => 0⟩) ∧
      (¬ Succeeds past disk calls → (main (passes + 1) calls disk).1.Aborted) := by
  rcases ownFile_of_run run with ⟨full, zeros⟩
  constructor
  · rintro ⟨⟨layout, served⟩, available⟩
    rw [← full, ← checkDataFile_isSome served] at available
    rcases available with ⟨file, opened⟩
    refine main_of_zeros served disjoint opened ?_ passes
    have onDisk : (main (passes + 1) calls disk).2 = some file := by
      rw [main_disk, served.state]
      exact (checkDataFile_opened opened).1
    exact zeros_main zeros (passes + 1) file onDisk
  · intro fails
    apply main_aborted
    intro layout file served opened
    apply fails
    refine ⟨⟨layout, served⟩, ?_⟩
    rw [← full, ← checkDataFile_isSome served]
    exact ⟨file, opened⟩

/-- However the system calls fail in a sequence of runs that starts without a data file: no
run stops inside of its tests. A run whose calls succeed returns with the accumulator and all
words zero, and every other run is aborted. -/
theorem runs_on_own_file {passes : ℕ} {past : History (Option DataFile) Calls}
    (run : Run (mainStep (passes + 1)) none past disk)
    (disjoint : Guarded (fun _ calls => calls.Disjoint) past) :
    EveryStep
      (fun past disk calls _ =>
        (Succeeds past disk calls →
          (main (passes + 1) calls disk).1 = .returned ⟨0, fun _ => 0⟩) ∧
        (¬ Succeeds past disk calls → (main (passes + 1) calls disk).1.Aborted))
      past disk := by
  induction run with
  | start => trivial
  | step run stepped ih =>
      exact ⟨run_on_own_file run disjoint.head, ih disjoint.tail⟩

end

/-- A run in which every call succeeds. -/
def allSucceed : Calls where
  state := some apart.state
  bufTags := some apart.bufTags
  stream := true
  create := true
  seek := true
  write := true
  reopen := true
  stat := true
  virtMem := some apart.virtMem
  advise := true
  lock := true

theorem allSucceed_disjoint : allSucceed.Disjoint := by
  intro state bufTags virtMem isState isTags isMem
  simp only [allSucceed, Option.some.injEq] at isState isTags isMem
  subst isState isTags isMem
  decide

theorem allSucceed_served :
    allSucceed.Served ⟨apart.state, apart.bufTags, apart.virtMem, initBufTable apart.virtMem⟩ :=
  ⟨rfl, rfl, rfl, rfl, rfl, rfl, rfl, by dsimp only⟩

/-- Without a data file the first run returns; after a run whose `lseek` fails the next run is
aborted. -/
theorem own_file_after_failed_seek :
    (main 1 allSucceed none).1 = .returned ⟨0, fun _ => 0⟩ ∧
      (main 1 allSucceed (some [])).1.Aborted := by
  constructor
  · have run : Run (mainStep 1) none [(none, allSucceed)] (main 1 allSucceed none).2 :=
      Run.start.step rfl
    have everyRun := runs_on_own_file run (Guarded.cons allSucceed_disjoint Guarded.nil)
    exact everyRun.1.1 ⟨⟨_, allSucceed_served⟩, .inr ⟨rfl, rfl, rfl, rfl, rfl⟩⟩
  · let failing : Calls := { allSucceed with seek := false }
    have failing_disjoint : failing.Disjoint :=
      fun isState isTags isMem => allSucceed_disjoint isState isTags isMem
    have first : Run (mainStep 1) none [(none, failing)] (some []) :=
      Run.start.step (congrArg some (main_disk 1 failing none))
    have run : Run (mainStep 1) none [(some [], allSucceed), (none, failing)]
        (main 1 allSucceed (some [])).2 := first.step rfl
    have everyRun := runs_on_own_file run
      (Guarded.cons allSucceed_disjoint (Guarded.cons failing_disjoint Guarded.nil))
    apply everyRun.1.2
    rintro ⟨_, ⟨_, moment, moment_mem, extended⟩ | extending⟩
    · simp only [List.mem_singleton] at moment_mem
      subst moment_mem
      exact absurd extended.seek (by decide)
    · exact absurd extending.notGood (by decide)

end UserLevelMmap.BufferManager
