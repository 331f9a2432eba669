import DistFuzz.Fuzzer.NewBits
import DistFuzz.Fuzzer.Queue

/-!
# Keeping interesting cases (`AddInterestingSeed`, TestRunning.cpp:504–857)

After every execution of a mutated case the fuzzer compares the two coverage
maps with what it has seen, adds the case to the queue if it is interesting, and
files crashes and hangs. The model is of the default build
(`NO_FUZZING_ERROR`, `NO_CONCURRENCY_FUZZ`).

- `Execution`: what `ExecuteCase` leaves behind; `FuzzerState`: the globals.
- `crashHandler`, `hangHandler`: they work on the `Findings` alone.
- `addInterestingSeed`, with `Interesting` for when it enqueues and
  `addInterestingSeed_of_interesting` for all it does besides filing.
- `virginMap_run`, `interesting_branch_run`: along a sequence of calls the virgin
  maps hold exactly the cells that were hit.
-/

namespace DistFuzz.Fuzzer

open DistFuzz.Lib

/-! ## Data -/

/-- `FAULT_NONE`, `FAULT_TMOUT`, `FAULT_CRASH`: what `ExecuteCase` returns. -/
inductive RunStatus where
  | none
  | tmout
  | crash
deriving DecidableEq, Repr

/-- One execution: the case, how it ended, and the two maps `has_new_bits` gets, of
which the global one has been through `classify_counts`. -/
structure Execution where
  mem : List UInt8
  status : RunStatus
  globalTraceBit : CovMap
  branchTraceBit : CovMap

/-- `sync_state`: neither `-M` nor `-S`, `MASTER` or `SLAVE`. -/
inductive SyncState where
  | alone
  | master
  | slave
deriving DecidableEq, Repr

/-- The command line: `-b`, the output directory, `-M` or `-S`. -/
structure Config where
  isBranchCoverage : Bool
  outputDir : String
  syncState : SyncState

/-- A file of the output directory. The time stamps at the end of the names of
crashes and hangs are left out. -/
structure SavedFile where
  fileName : String
  mem : List UInt8
deriving DecidableEq, Repr

/-- Crashes and hangs so far, the statistics and the files written. -/
structure Findings where
  crashTrace : TraceBits
  timeoutTrace : TraceBits
  totalCrashCount : UInt32
  uniqueCrashCount : UInt32
  totalTimeoutCount : UInt32
  uniqueHangCount : UInt32
  usefuleInput : UInt64
  files : List SavedFile

/-- The globals of a fuzzer. `syncCov` and `syncBranchCov` are what
`sync_cov_ptr` and `sync_branch_cov_ptr` point to; `halted` says that the
process is gone. -/
structure FuzzerState where
  seeds : SeedQueue
  virginMap : CovMap
  virginMapForBranchTraceBit : CovMap
  findings : Findings
  totalInput : UInt64
  fuzzTime : Nat
  syncCov : CovMap
  syncBranchCov : CovMap
  halted : Bool

/-- `memset(virginMap, 255, MAP_SIZE)`. -/
def virgin : CovMap := fun _ => 0xff

/-- The globals before the dry run, with these seeds in the queue and `attached`
behind the two pointers. -/
def FuzzerState.init (seeds : List Seed) (attached : CovMap × CovMap) : FuzzerState :=
  { seeds := .ofList seeds, virginMap := virgin, virginMapForBranchTraceBit := virgin,
    findings := ⟨fun _ => false, fun _ => false, 0, 0, 0, 0, 0, []⟩, totalInput := 0,
    fuzzTime := 0, syncCov := attached.1, syncBranchCov := attached.2, halted := false }

/-- `num2str_Keep6bit`: `sprintf("%06u")`. The text of a number from `10^9` on, with its
`NUL`, is one byte longer than `ss[10]`; that overflow is not modelled. -/
def num2strKeep6bit (num : UInt32) : String :=
  let digits := toString num.toNat
  "".pushn '0' (6 - digits.length) ++ digits

/-! ## Crashes and hangs -/

/-- The trace has a bit that was not seen before: `!(trace & ~seen).none()`. -/
def hasNewTraceBit (trace seen : TraceBits) : Bool :=
  (List.finRange mapSize).any fun i => trace i && !seen i

/-- `crash_handler`. -/
def crashHandler (cfg : Config) (keeping : Bool) (fs : Findings) (e : Execution) :
    Bool × Findings :=
  let total := fs.totalCrashCount + 1
  -- every crash is filed once under `total_crash`, known or not
  let fs :=
    { fs with
      totalCrashCount := total
      files := fs.files ++ [⟨cfg.outputDir ++ "total_crash/" ++ num2strKeep6bit total, e.mem⟩] }
  let trace := minimizeBit e.globalTraceBit
  if hasNewTraceBit trace fs.crashTrace then
    let unique := fs.uniqueCrashCount + 1
    (true,
     { fs with
       crashTrace := fun i => fs.crashTrace i || trace i
       uniqueCrashCount := unique
       files := fs.files ++
         [⟨cfg.outputDir ++ "crash/" ++ num2strKeep6bit unique ++ "-"
            ++ num2strKeep6bit total, e.mem⟩]
       usefuleInput := if keeping then fs.usefuleInput else fs.usefuleInput + 1 })
  else (keeping, fs)

/-- `EXEC_TIMEOUT`, in milliseconds. -/
def execTimeout : UInt32 := 20000000

/-- `exec_tmout`: nothing changes it, since `timeout_given` is set. -/
def execTmout : UInt32 := execTimeout

/-- `hang_tmout` after `init_stats`. -/
def hangTmout : UInt32 :=
  if execTimeout < execTmout * 2 + 100 then execTimeout else execTmout * 2 + 100

/-- `hang_handler`; `rerun` is the execution with more time. -/
def hangHandler (cfg : Config) (keeping : Bool) (fs : Findings) (e rerun : Execution) :
    Bool × Findings :=
  let fs := { fs with totalTimeoutCount := fs.totalTimeoutCount + 1 }
  let trace := minimizeBit e.globalTraceBit
  if !hasNewTraceBit trace fs.timeoutTrace then (keeping, fs)
  -- `exec_tmout` equals `hang_tmout` in this build, so there is no second run
  else if execTmout < hangTmout ∧ rerun.status = .crash then
    crashHandler cfg keeping fs { rerun with mem := e.mem }
  else if execTmout < hangTmout ∧ rerun.status = .none then (keeping, fs)
  else
    let unique := fs.uniqueHangCount + 1
    (true,
     { fs with
       timeoutTrace := fun i => fs.timeoutTrace i || trace i
       uniqueHangCount := unique
       files := fs.files ++ [⟨cfg.outputDir ++ "hang/" ++ num2strKeep6bit unique, e.mem⟩]
       usefuleInput := if keeping then fs.usefuleInput else fs.usefuleInput + 1 })

/-- The switch on `run_status` at the end of `AddInterestingSeed`. -/
def fileExecution (cfg : Config) (keeping : Bool) (fs : Findings) (e rerun : Execution) :
    Bool × Findings :=
  match e.status with
  | .tmout => hangHandler cfg keeping fs e rerun
  | .crash => crashHandler cfg keeping fs e
  | .none => (keeping, fs)

/-! ## `AddInterestingSeed` -/

/-- The name of the next file of the queue. -/
def queueFileName (cfg : Config) (f : FuzzerState) (newBitFlag : UInt8) : String :=
  cfg.outputDir ++ "queue/" ++ num2strKeep6bit (UInt32.ofNat f.seeds.queue.length)
    ++ (if newBitFlag = 2 then "+cov" else "+tup")

/-- The seed made of an interesting case. Its length passes through a `u32`, and
its execution time is not measured. -/
def interestingSeed (cfg : Config) (f : FuzzerState) (e : Execution) (newBitFlag : UInt8) : Seed :=
  { Seed.new (queueFileName cfg f newBitFlag) (UInt32.ofNat e.mem.length).toUInt64 with
    execTime := 1
    recorded := some e.globalTraceBit }

/-- An interesting case goes to the end of the queue, and nowhere else. -/
def addToQueue (cfg : Config) (f : FuzzerState) (e : Execution) (newBitFlag : UInt8) :
    SeedQueue :=
  { f.seeds with queue := f.seeds.queue ++ [interestingSeed cfg f e newBitFlag] }

/-- What is filed for an interesting case. -/
def fileInteresting (cfg : Config) (f : FuzzerState) (e : Execution) (newBitFlag : UInt8) :
    Findings :=
  { f.findings with
    usefuleInput := f.findings.usefuleInput + 1
    files := f.findings.files ++ [⟨queueFileName cfg f newBitFlag, e.mem⟩] }

/-- The verdict that counts: with `-b` only a never-hit branch does. -/
def newBitFlag (cfg : Config) (f : FuzzerState) (e : Execution) : UInt8 :=
  if cfg.isBranchCoverage then
    (if (hasNewBits e.branchTraceBit f.virginMapForBranchTraceBit).1 = 2 then 2 else 0)
  else (hasNewBits e.globalTraceBit f.virginMap).1

/-- `AddInterestingSeed`: whether the case is kept, and the state after it. -/
def addInterestingSeed (cfg : Config) (f : FuzzerState) (e rerun : Execution) :
    Bool × FuzzerState :=
  let flag := newBitFlag cfg f e
  let keeping := flag != 0
  -- the handlers see the count and the files after the case was put in the queue
  let filed := fileExecution cfg keeping
    (if keeping then fileInteresting cfg f e flag else f.findings) e rerun
  (filed.1,
   { f with
     virginMapForBranchTraceBit := (hasNewBits e.branchTraceBit f.virginMapForBranchTraceBit).2
     virginMap := (hasNewBits e.globalTraceBit f.virginMap).2
     seeds := if keeping then addToQueue cfg f e flag else f.seeds
     findings := filed.2 })

/-! ## What a call does -/

/-- When a case goes to the queue. -/
def Interesting (cfg : Config) (f : FuzzerState) (e : Execution) : Prop :=
  if cfg.isBranchCoverage then
    ∃ i, NewByte e.branchTraceBit f.virginMapForBranchTraceBit i
  else ∃ i, NewBit e.globalTraceBit f.virginMap i

theorem hasNewBits_eq (current virgin : CovMap) :
    hasNewBits current virgin = (newBitsVerdict current virgin, clearHits current virgin) :=
  hasNewBitsWords_eq (by omega) eight_dvd_mapSize current virgin

theorem newBitFlag_ne_zero_iff {cfg : Config} {f : FuzzerState} {e : Execution} :
    newBitFlag cfg f e ≠ 0 ↔ Interesting cfg f e := by
  rw [newBitFlag, Interesting, hasNewBits_eq, hasNewBits_eq]
  cases cfg.isBranchCoverage with
  | true =>
    simp only [if_true, newBitsVerdict_eq_two_iff]
    split
    · next h => simp [h]
    · next h => simp [h]
  | false => simp [newBitsVerdict_eq_zero_iff]

theorem addInterestingSeed_virginMap (cfg : Config) (f : FuzzerState) (e rerun : Execution) :
    (addInterestingSeed cfg f e rerun).2.virginMap
      = clearHits e.globalTraceBit f.virginMap := by
  simp only [addInterestingSeed, hasNewBits_eq]

theorem addInterestingSeed_virginMapForBranchTraceBit (cfg : Config) (f : FuzzerState)
    (e rerun : Execution) :
    (addInterestingSeed cfg f e rerun).2.virginMapForBranchTraceBit
      = clearHits e.branchTraceBit f.virginMapForBranchTraceBit := by
  simp only [addInterestingSeed, hasNewBits_eq]

/-- An interesting case is appended to the queue. -/
theorem addInterestingSeed_of_interesting {cfg : Config} {f : FuzzerState} {e : Execution}
    (h : Interesting cfg f e) (rerun : Execution) :
    (addInterestingSeed cfg f e rerun).2.seeds = addToQueue cfg f e (newBitFlag cfg f e) := by
  have hflag : (newBitFlag cfg f e != 0) = true := by
    simpa using newBitFlag_ne_zero_iff.mpr h
  show (if (newBitFlag cfg f e != 0) = true then _ else _) = _
  rw [if_pos hflag]

/-- Any other case leaves the queue as it is. -/
theorem addInterestingSeed_of_not_interesting {cfg : Config} {f : FuzzerState} {e : Execution}
    (h : ¬Interesting cfg f e) (rerun : Execution) :
    (addInterestingSeed cfg f e rerun).2.seeds = f.seeds := by
  have hflag : ¬(newBitFlag cfg f e != 0) = true := by
    simpa using fun hne => h (newBitFlag_ne_zero_iff.mp hne)
  show (if (newBitFlag cfg f e != 0) = true then _ else _) = _
  rw [if_neg hflag]

/-- The queue grew. -/
def Enqueued (f f' : FuzzerState) : Prop := f.seeds.queue.length < f'.seeds.queue.length

theorem enqueued_iff (cfg : Config) (f : FuzzerState) (e rerun : Execution) :
    Enqueued f (addInterestingSeed cfg f e rerun).2 ↔ Interesting cfg f e := by
  by_cases h : Interesting cfg f e
  · simp [Enqueued, addInterestingSeed_of_interesting h, addToQueue, h]
  · simp [Enqueued, addInterestingSeed_of_not_interesting h, h]

/-! ## Sequences of calls -/

/-- One call, as a step: the execution and, should it hang, its second run. -/
def stepInteresting (cfg : Config) (f : FuzzerState) (u : Execution × Execution) : FuzzerState :=
  (addInterestingSeed cfg f u.1 u.2).2

theorem stepInteresting_virginMap (cfg : Config) (f : FuzzerState) (u : Execution × Execution) :
    (stepInteresting cfg f u).virginMap = clearHits u.1.globalTraceBit f.virginMap := by
  rw [stepInteresting, addInterestingSeed_virginMap]

theorem stepInteresting_virginMapForBranchTraceBit (cfg : Config) (f : FuzzerState)
    (u : Execution × Execution) :
    (stepInteresting cfg f u).virginMapForBranchTraceBit
      = clearHits u.1.branchTraceBit f.virginMapForBranchTraceBit := by
  rw [stepInteresting, addInterestingSeed_virginMapForBranchTraceBit]

theorem virginMap_run (cfg : Config) {f : FuzzerState} (hf : f.virginMap = virgin)
    (us : List (Execution × Execution)) (i : Fin mapSize) :
    (run (stepInteresting cfg) f us).virginMap i ≠ 0xff
      ↔ ∃ u ∈ us, u.1.globalTraceBit i ≠ 0 := by
  have hrun := run_clearHits FuzzerState.virginMap
    (fun u : Execution × Execution => u.1.globalTraceBit) (stepInteresting_virginMap cfg) f us i
  rw [Ne, hrun, hf]
  simp [virgin]

theorem virginMapForBranchTraceBit_run (cfg : Config) {f : FuzzerState}
    (hf : f.virginMapForBranchTraceBit = virgin) (us : List (Execution × Execution))
    (i : Fin mapSize) :
    (run (stepInteresting cfg) f us).virginMapForBranchTraceBit i ≠ 0xff
      ↔ ∃ u ∈ us, u.1.branchTraceBit i ≠ 0 := by
  have hrun := run_clearHits FuzzerState.virginMapForBranchTraceBit
    (fun u : Execution × Execution => u.1.branchTraceBit)
    (stepInteresting_virginMapForBranchTraceBit cfg) f us i
  rw [Ne, hrun, hf]
  simp [virgin]

/-- In branch-coverage mode a case is interesting if and only if it hits an index
that no earlier case of the sequence hit. -/
theorem interesting_branch_run {cfg : Config} (hcfg : cfg.isBranchCoverage = true)
    {f : FuzzerState} (hf : f.virginMapForBranchTraceBit = virgin)
    (us : List (Execution × Execution)) (e : Execution) :
    Interesting cfg (run (stepInteresting cfg) f us) e
      ↔ ∃ i, e.branchTraceBit i ≠ 0 ∧ ∀ u ∈ us, u.1.branchTraceBit i = 0 := by
  rw [Interesting, if_pos hcfg]
  refine exists_congr fun i => and_congr_right fun _ => ?_
  have hrun := not_congr (virginMapForBranchTraceBit_run cfg hf us i)
  rw [not_not] at hrun
  rw [hrun]
  push Not
  rfl

/-- **New-coverage test.** The word scan decides as the cells say, in both word
sizes. Along any sequence of `AddInterestingSeed` calls that starts with virgin
maps, the cells that left the virgin value are those that some trace hit,
`ShowCoverage` counts them, and in branch-coverage mode a call enqueues its case
if and only if the case hits an index no earlier one hit. -/
theorem new_coverage :
    (∀ (n : Nat), 8 ∣ n → ∀ current virgin : ByteMap n,
      ((hasNewBits current virgin).1 = 2 ↔ ∃ i, current i ≠ 0 ∧ virgin i = 0xff) ∧
      ((hasNewBits current virgin).1 = 1 ↔
        (hasNewBits current virgin).1 ≠ 2 ∧ ∃ i, current i &&& virgin i ≠ 0) ∧
      ((hasNewBits current virgin).1 = 0 ↔ ∀ i, current i &&& virgin i = 0) ∧
      (∀ i, (hasNewBits current virgin).2 i = virgin i &&& ~~~current i) ∧
      hasNewBits32 current virgin = hasNewBits current virgin) ∧
    (∀ (cfg : Config) (f : FuzzerState) (us : List (Execution × Execution)),
      f.virginMap = virgin → f.virginMapForBranchTraceBit = virgin →
      (∀ i, (run (stepInteresting cfg) f us).virginMap i ≠ 0xff
        ↔ ∃ u ∈ us, u.1.globalTraceBit i ≠ 0) ∧
      (∀ i, (run (stepInteresting cfg) f us).virginMapForBranchTraceBit i ≠ 0xff
        ↔ ∃ u ∈ us, u.1.branchTraceBit i ≠ 0) ∧
      showCoverage (run (stepInteresting cfg) f us).virginMap
        = (Finset.univ.filter fun i => ∃ u ∈ us, u.1.globalTraceBit i ≠ 0).card ∧
      showCoverage (run (stepInteresting cfg) f us).virginMapForBranchTraceBit
        = (Finset.univ.filter fun i => ∃ u ∈ us, u.1.branchTraceBit i ≠ 0).card ∧
      (cfg.isBranchCoverage = true → ∀ pre u post, us = pre ++ u :: post →
        (Enqueued (run (stepInteresting cfg) f pre) (run (stepInteresting cfg) f (pre ++ [u]))
          ↔ ∃ i, u.1.branchTraceBit i ≠ 0 ∧ ∀ v ∈ pre, v.1.branchTraceBit i = 0))) := by
  refine ⟨fun n hn current virgin => ?_, fun cfg f us hmap hbranch => ?_⟩
  -- the two word sizes lead to the same verdict on the bytes
  · have h64 : hasNewBits current virgin
        = (newBitsVerdict current virgin, clearHits current virgin) :=
      hasNewBitsWords_eq (by omega) hn current virgin
    have h32 : hasNewBits32 current virgin =
        (newBitsVerdict current virgin, clearHits current virgin) :=
      hasNewBitsWords_eq (by omega) (Nat.dvd_trans ⟨2, rfl⟩ hn) current virgin
    rw [h64, h32]
    refine ⟨newBitsVerdict_eq_two_iff, newBitsVerdict_eq_one_iff, ?_, fun i => rfl, rfl⟩
    rw [newBitsVerdict_eq_zero_iff]
    exact forall_congr' fun i => not_not
  · refine ⟨virginMap_run cfg hmap us, virginMapForBranchTraceBit_run cfg hbranch us,
      showCoverage_eq_card (virginMap_run cfg hmap us),
      showCoverage_eq_card (virginMapForBranchTraceBit_run cfg hbranch us), ?_⟩
    rintro hcfg pre u post -
    rw [run_concat, stepInteresting, enqueued_iff]
    exact interesting_branch_run hcfg hbranch pre u.1

/-- A map with one cell hit. -/
def oneHit {n : Nat} (i : Fin n) : ByteMap n := fun k => if k = i then 1 else 0

/-- A map with all cells up to one hit. -/
def hitsUpTo {n : Nat} (i : Fin n) : ByteMap n := fun k => if k ≤ i then 1 else 0

/-- A case that hits one branch. -/
def oneBranch (i : Fin mapSize) : Execution := ⟨[0], .none, fun _ => 0, oneHit i⟩

/-- A case that hits the branches up to one. -/
def branchesUpTo (i : Fin mapSize) : Execution := ⟨[0, 0], .none, fun _ => 0, hitsUpTo i⟩

/-- Two traces, of which the second repeats the first and hits one index more: the scan
finds a virgin cell after the first one, and in a campaign the second case is enqueued. -/
theorem new_coverage_two :
    (hasNewBits (hitsUpTo 1 : ByteMap 8)
      (hasNewBits (oneHit 0 : ByteMap 8) fun _ => 0xff).2).1 = 2 ∧
    Enqueued
      (run (stepInteresting ⟨true, "out/", .alone⟩) (.init [] (virgin, virgin))
        [(oneBranch ⟨0, mapSize_pos⟩, oneBranch ⟨0, mapSize_pos⟩)])
      (run (stepInteresting ⟨true, "out/", .alone⟩) (.init [] (virgin, virgin))
        [(oneBranch ⟨0, mapSize_pos⟩, oneBranch ⟨0, mapSize_pos⟩),
          (branchesUpTo ⟨1, one_lt_mapSize⟩, branchesUpTo ⟨1, one_lt_mapSize⟩)]) := by
  constructor
  · refine (new_coverage.1 8 (dvd_refl 8) _ _).1.mpr ⟨1, by decide, ?_⟩
    rw [(new_coverage.1 8 (dvd_refl 8) _ _).2.2.2.1]
    decide
  · have h := (new_coverage.2 ⟨true, "out/", .alone⟩ (.init [] (virgin, virgin))
      [(oneBranch ⟨0, mapSize_pos⟩, oneBranch ⟨0, mapSize_pos⟩),
        (branchesUpTo ⟨1, one_lt_mapSize⟩, branchesUpTo ⟨1, one_lt_mapSize⟩)]
      rfl rfl).2.2.2.2 rfl [(oneBranch ⟨0, mapSize_pos⟩, oneBranch ⟨0, mapSize_pos⟩)] _ [] rfl
    refine h.mpr ⟨⟨1, one_lt_mapSize⟩, by simp [branchesUpTo, hitsUpTo], fun v hv => ?_⟩
    rw [List.mem_singleton.mp hv]
    simp [oneBranch, oneHit]

end DistFuzz.Fuzzer
