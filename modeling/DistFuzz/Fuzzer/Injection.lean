import DistFuzz.Lib.Words
import DistFuzz.Fuzzer.Campaign
import DistFuzz.Fuzzer.ControlMatrix

/-!
# Fault injection and concurrency fuzzing in `FuzzUnit` (TestRunning.cpp:553–889)

A build can have fault injection, which runs the target with a list of the points at
which it is to fail, and concurrency fuzzing, which runs it with a control matrix. An
execution that met one of the points or travelled one of the control elements is filed
apart from the others. The models of `AddInterestingSeed` and `FuzzUnit` are those of every
build here.

- `Build`: what is compiled in. `InjectionState`: the globals with those of the two
  additions.
- `faultUnit`, `isUniqueFault`, `saveCrashedFu` (FaultInjectionEngin.cpp): the sets of
  fault points that crashed the target.
- `exCrashHandler`, `exHangHandler`, `addInterestingSeedIn`, `fuzzUnitIn`.
- `fuzzUnitIn_default`: a build that has neither does what `fuzzUnit` does.
- `fuzzUnitIn_fuList_of_reaches`, `fuzzUnitIn_fuList_of_not_reaches`: when a set is saved.
-/

namespace DistFuzz.Fuzzer

open DistFuzz.Lib

/-! ## Fault sets -/

/-- `MAX_LIST_SIZE`. -/
def maxListSize : Nat := 2 ^ 13

/-- `error_list`, and `errorTraced`: a byte for each error site. -/
abbrev ErrorList := ByteMap maxListSize

/-- `fault_unit`. -/
abbrev FaultUnit := Finset (Fin maxListSize)

/-- The sites at which the target is to fail. -/
def faultUnit (errorList : ErrorList) : FaultUnit := Finset.univ.filter fun i => errorList i = 1

/-- `is_unique_fault`: no saved set is a subset of the fault points. -/
def isUniqueFault (fuList : List FaultUnit) (errorList : ErrorList) : Bool :=
  let fu := faultUnit errorList
  !fuList.any fun fuTest => decide (fuTest ⊆ fu)

/-- `save_crashed_fu`. -/
def saveCrashedFu (fuList : List FaultUnit) (errorList : ErrorList) : List FaultUnit :=
  fuList ++ [faultUnit errorList]

/-- `are_errors_triggered`. -/
def areErrorsTriggered (errorList errorTrace : ErrorList) : Bool :=
  (List.finRange maxListSize).any fun i => errorList i != 0 && errorTrace i != 0

theorem mem_faultUnit {errorList : ErrorList} {i : Fin maxListSize} :
    i ∈ faultUnit errorList ↔ errorList i = 1 := by
  rw [faultUnit, Finset.mem_filter, and_iff_right (Finset.mem_univ i)]

theorem isUniqueFault_eq_false_iff {fuList : List FaultUnit} {errorList : ErrorList} :
    isUniqueFault fuList errorList = false ↔ ∃ fuTest ∈ fuList, fuTest ⊆ faultUnit errorList := by
  simp only [isUniqueFault, Bool.not_eq_false', List.any_eq_true, decide_eq_true_iff]

/-! ## The globals -/

/-- What is compiled in: fault injection (`NO_FUZZING_ERROR` is not defined) and concurrency
fuzzing (`NO_CONCURRENCY_FUZZ` is not). -/
structure Build where
  fuzzingError : Bool
  concurrencyFuzz : Bool
deriving DecidableEq, Repr

/-- An execution, with what the target noted of error sites and control elements. -/
structure InjectedExecution extends Execution where
  errorTraced : ErrorList
  travelMatrix : TravelMatrix

/-- What becomes of a call of `FuzzUnit`: the execution, the second run if it hangs, and
what the other fuzzers did to the shared maps. -/
structure Outcome where
  exec : InjectedExecution
  rerun : InjectedExecution
  peers : CovMap × CovMap

/-- A call of `FuzzUnit`. Where a list is `NULL`, the one that is there stays. -/
structure InjectedInput extends Outcome where
  errorList : Option ErrorList
  controlMatrix : Option ControlMatrix

/-- What a build without the two additions sees of it. -/
def Outcome.toUnitInput (o : Outcome) : UnitInput :=
  ⟨o.exec.toExecution, o.rerun.toExecution, o.peers⟩

/-- The globals of a fuzzer with those of the two additions. `errorList`, `controlMatrix` and
`errorTraced` are shared with the target. -/
structure InjectionState extends FuzzerState where
  errorList : ErrorList
  controlMatrix : ControlMatrix
  errorTraced : ErrorList
  totalTravel : Finset UInt64
  fuList : List FaultUnit
  totalErrorSeq : UInt64
  usefulErrorSeq : UInt64
  totalExTimeoutCount : UInt32
  uniqueExCrashCount : UInt32
  uniqueExHangCount : UInt32

/-- Before the first call of `FuzzUnit`. -/
def InjectionState.start (f : FuzzerState) : InjectionState :=
  { f with
    errorList := fun _ => 0, controlMatrix := .zeros, errorTraced := fun _ => 0
    totalTravel := ∅, fuList := [], totalErrorSeq := 0, usefulErrorSeq := 0
    totalExTimeoutCount := 0, uniqueExCrashCount := 0, uniqueExHangCount := 0 }

/-! ## `AddInterestingSeed` -/

/-- The bytes of an error list. -/
def ErrorList.bytes (errorList : ErrorList) : List UInt8 := List.ofFn errorList

/-- The bytes of a control matrix. -/
def ControlMatrix.bytes (control : ControlMatrix) : List UInt8 :=
  control.elements.flatMap fun e =>
    wordBytes (w := 8) e.hash1.toBitVec ++ wordBytes (w := 8) e.hash2.toBitVec

/-- `eflag`. -/
def eflag (build : Build) (s : InjectionState) (e : InjectedExecution) : Bool :=
  build.fuzzingError && areErrorsTriggered s.errorList e.errorTraced

/-- `cflag`. -/
def cflag (build : Build) (s : InjectionState) (e : InjectedExecution) : Bool :=
  build.concurrencyFuzz && isControlMatrixTriggered s.controlMatrix e.travelMatrix

/-- The files of `ex_crash` or `ex_hang`. The time stamps are left out. -/
def exFiles (cfg : Config) (dir : String) (count : UInt32) (s : InjectionState)
    (e : InjectedExecution) : List SavedFile :=
  ⟨cfg.outputDir ++ dir ++ "files/" ++ num2strKeep6bit count, e.mem⟩ ::
    if areErrorsTriggered s.errorList e.errorTraced then
      [⟨cfg.outputDir ++ dir ++ "errorlists/" ++ num2strKeep6bit count, s.errorList.bytes⟩]
    else []

/-- `ex_crash_handler`. -/
def exCrashHandler (cfg : Config) (keeping : Bool) (s : InjectionState) (e : InjectedExecution) :
    Bool × InjectionState :=
  let uniqueFault := isUniqueFault s.fuList s.errorList
  let trace := minimizeBit e.globalTraceBit
  let newBit := hasNewTraceBit trace s.findings.crashTrace
  if !uniqueFault && !newBit then (keeping, s)
  else
    let count := s.uniqueExCrashCount + 1
    (true,
     { s with
       fuList := if uniqueFault then saveCrashedFu s.fuList s.errorList else s.fuList
       findings :=
         { s.findings with
           crashTrace := fun i => s.findings.crashTrace i || newBit && trace i
           files := s.findings.files ++ exFiles cfg "ex_crash/" count s e }
       uniqueExCrashCount := count
       usefulErrorSeq :=
         if !keeping && uniqueFault then s.usefulErrorSeq + 1 else s.usefulErrorSeq })

/-- `ex_hang_handler`; `rerun` is the execution with more time. -/
def exHangHandler (cfg : Config) (keeping : Bool) (s : InjectionState)
    (e rerun : InjectedExecution) : Bool × InjectionState :=
  let s := { s with totalExTimeoutCount := s.totalExTimeoutCount + 1 }
  let trace := minimizeBit e.globalTraceBit
  if !hasNewTraceBit trace s.findings.timeoutTrace then (keeping, s)
  -- as in `hangHandler`, there is no second run
  else if execTmout < hangTmout ∧ rerun.status = .crash then
    exCrashHandler cfg keeping { s with errorTraced := rerun.errorTraced }
      { rerun with mem := e.mem }
  else if execTmout < hangTmout ∧ rerun.status = .none then
    (keeping, { s with errorTraced := rerun.errorTraced })
  else
    let count := s.uniqueExHangCount + 1
    (true,
     { s with
       findings :=
         { s.findings with
           timeoutTrace := fun i => s.findings.timeoutTrace i || trace i
           files := s.findings.files ++ exFiles cfg "ex_hang/" count s e }
       uniqueExHangCount := count
       usefulErrorSeq := if keeping then s.usefulErrorSeq else s.usefulErrorSeq + 1 })

/-- The name of a list that belongs to the next file of the queue. -/
def listFileName (cfg : Config) (dir : String) (f : FuzzerState) (newBitFlag : UInt8) : String :=
  cfg.outputDir ++ dir ++ num2strKeep6bit (UInt32.ofNat f.seeds.queue.length)
    ++ (if newBitFlag = 2 then "+cov" else "+tup")

/-- What is filed for an interesting case, with the lists that made it so. -/
def fileInterestingIn (build : Build) (cfg : Config) (s : InjectionState) (e : InjectedExecution)
    (flag : UInt8) : Findings :=
  { s.findings with
    usefuleInput :=
      if !eflag build s e && !cflag build s e then s.findings.usefuleInput + 1
      else s.findings.usefuleInput
    files := s.findings.files
      ++ (if eflag build s e then
          [⟨listFileName cfg "errorList/" s.toFuzzerState flag, s.errorList.bytes⟩] else [])
      ++ (if cflag build s e then
          [⟨listFileName cfg "delayList/" s.toFuzzerState flag, s.controlMatrix.bytes⟩] else [])
      ++ [⟨queueFileName cfg s.toFuzzerState flag, e.mem⟩] }

/-- The maps, the queue and the findings of a fuzzer set to these. -/
def FuzzerState.keep (f : FuzzerState) (branch cov : CovMap) (seeds : SeedQueue)
    (findings : Findings) : FuzzerState :=
  { f with
    virginMapForBranchTraceBit := branch
    virginMap := cov
    seeds := seeds
    findings := findings }

theorem FuzzerState.keep_findings (f : FuzzerState) (branch cov : CovMap) (seeds : SeedQueue)
    (findings : Findings) : (f.keep branch cov seeds findings).findings = findings := rfl

theorem FuzzerState.keep_setFindings (f : FuzzerState) (branch cov : CovMap) (seeds : SeedQueue)
    (findings findings' : Findings) :
    { f.keep branch cov seeds findings with findings := findings' }
      = f.keep branch cov seeds findings' := rfl

/-- `AddInterestingSeed` up to the switch: whether the case is kept, and the state. -/
def keepInteresting (build : Build) (cfg : Config) (s : InjectionState) (e : InjectedExecution) :
    Bool × InjectionState :=
  let flag := newBitFlag cfg s.toFuzzerState e.toExecution
  let travel := hasNewTravelMatrixElement e.travelMatrix s.totalTravel
  let keeping := flag != 0 || (build.concurrencyFuzz && travel.1)
  (keeping,
   { s with
     toFuzzerState := s.toFuzzerState.keep
       (hasNewBits e.branchTraceBit s.virginMapForBranchTraceBit).2
       (hasNewBits e.globalTraceBit s.virginMap).2
       (if keeping then addToQueue cfg s.toFuzzerState e.toExecution flag else s.seeds)
       (if keeping then fileInterestingIn build cfg s e flag else s.findings)
     totalTravel := if build.concurrencyFuzz then travel.2 else s.totalTravel
     usefulErrorSeq :=
       if keeping && eflag build s e then s.usefulErrorSeq + 1 else s.usefulErrorSeq })

/-- The findings replaced. -/
def InjectionState.setFindings (s : InjectionState) (findings : Findings) : InjectionState :=
  { s with findings := findings }

theorem InjectionState.setFindings_fuList (s : InjectionState) (findings : Findings) :
    (s.setFindings findings).fuList = s.fuList := rfl

/-- `AddInterestingSeed` in any build. -/
def addInterestingSeedIn (build : Build) (cfg : Config) (s : InjectionState)
    (e rerun : InjectedExecution) : Bool × InjectionState :=
  let kept := keepInteresting build cfg s e
  if eflag build s e || cflag build s e then
    match e.status with
    | .tmout => exHangHandler cfg kept.1 kept.2 e rerun
    | .crash => exCrashHandler cfg kept.1 kept.2 e
    | .none => kept
  else
    let filed := fileExecution cfg kept.1 kept.2.findings e.toExecution rerun.toExecution
    (filed.1, kept.2.setFindings filed.2)

/-! ## `FuzzUnit` -/

/-- The lists that `FuzzUnit` copies, and its count of the inputs. -/
def setLists (build : Build) (s : InjectionState) (u : InjectedInput) : InjectionState :=
  let s := match u.errorList with
    | some errorList => { s with totalErrorSeq := s.totalErrorSeq + 1, errorList := errorList }
    | none => { s with totalInput := s.totalInput + 1 }
  if build.concurrencyFuzz then
    { s with controlMatrix := u.controlMatrix.getD s.controlMatrix }
  else s

/-- The state in which the target is executed, and what it notes. -/
def atExecution (build : Build) (cfg : Config) (s : InjectionState) (u : InjectedInput) :
    InjectionState :=
  { setLists build { s with toFuzzerState := beforeExecution cfg s.toFuzzerState u.toUnitInput } u
    with errorTraced := u.exec.errorTraced }

/-- `FuzzUnit` in any build. -/
def fuzzUnitIn (build : Build) (cfg : Config) (s : InjectionState) (u : InjectedInput) :
    InjectionState :=
  if s.halted then s
  else
    let f := beforeExecution cfg s.toFuzzerState u.toUnitInput
    if f.halted then { s with toFuzzerState := f }
    else (addInterestingSeedIn build cfg (atExecution build cfg s u) u.exec u.rerun).2

/-! ## The default build -/

/-- `NO_FUZZING_ERROR` and `NO_CONCURRENCY_FUZZ`. -/
def defaultBuild : Build := ⟨false, false⟩

theorem eflag_default (s : InjectionState) (e : InjectedExecution) :
    eflag defaultBuild s e = false := Bool.false_and _

theorem cflag_default (s : InjectionState) (e : InjectedExecution) :
    cflag defaultBuild s e = false := Bool.false_and _

theorem fileInterestingIn_default (cfg : Config) (s : InjectionState) (e : InjectedExecution)
    (flag : UInt8) : fileInterestingIn defaultBuild cfg s e flag
      = fileInteresting cfg s.toFuzzerState e.toExecution flag := by
  rw [fileInterestingIn, eflag_default, cflag_default, fileInteresting]
  simp only [Bool.not_false, Bool.and_self, if_true, Bool.false_eq_true, if_false, List.append_nil]

theorem keepInteresting_default (cfg : Config) (s : InjectionState) (e : InjectedExecution) :
    (keepInteresting defaultBuild cfg s e).1
      = (newBitFlag cfg s.toFuzzerState e.toExecution != 0) := by
  rw [keepInteresting]
  dsimp only
  rw [defaultBuild, Bool.false_and, Bool.or_false]

theorem keepInteresting_toFuzzerState (cfg : Config) (s : InjectionState) (e : InjectedExecution) :
    (keepInteresting defaultBuild cfg s e).2.toFuzzerState = s.toFuzzerState.keep
      (hasNewBits e.branchTraceBit s.virginMapForBranchTraceBit).2
      (hasNewBits e.globalTraceBit s.virginMap).2
      (if newBitFlag cfg s.toFuzzerState e.toExecution != 0 then
        addToQueue cfg s.toFuzzerState e.toExecution
          (newBitFlag cfg s.toFuzzerState e.toExecution)
      else s.seeds)
      (if newBitFlag cfg s.toFuzzerState e.toExecution != 0 then
        fileInteresting cfg s.toFuzzerState e.toExecution
          (newBitFlag cfg s.toFuzzerState e.toExecution)
      else s.findings) := by
  rw [← fileInterestingIn_default, keepInteresting]
  dsimp only
  rw [show defaultBuild.concurrencyFuzz = false from rfl, Bool.false_and, Bool.or_false]

theorem addInterestingSeedIn_default (cfg : Config) (s : InjectionState)
    (e rerun : InjectedExecution) :
    (addInterestingSeedIn defaultBuild cfg s e rerun).2.toFuzzerState
      = (addInterestingSeed cfg s.toFuzzerState e.toExecution rerun.toExecution).2 := by
  have hkept := keepInteresting_toFuzzerState cfg s e
  have hfindings := (congrArg FuzzerState.findings hkept).trans (FuzzerState.keep_findings ..)
  -- the handlers of the plain build see the state in which the case was kept
  have hset := congrArg (fun f : FuzzerState => { f with findings :=
    (fileExecution cfg (keepInteresting defaultBuild cfg s e).1
      (keepInteresting defaultBuild cfg s e).2.findings e.toExecution rerun.toExecution).2 }) hkept
  rw [addInterestingSeedIn, eflag_default, cflag_default, if_neg (by decide)]
  refine hset.trans ((FuzzerState.keep_setFindings ..).trans ?_)
  rw [hfindings, keepInteresting_default]
  rfl

/-- **A build with neither addition** is the one of `fuzzUnit`. -/
theorem fuzzUnitIn_default (cfg : Config) (s : InjectionState) {u : InjectedInput}
    (hu : u.errorList = none) :
    (fuzzUnitIn defaultBuild cfg s u).toFuzzerState
      = fuzzUnit cfg s.toFuzzerState u.toUnitInput := by
  -- without an error list nothing is set before the execution
  have hlists : (atExecution defaultBuild cfg s u).toFuzzerState =
      { beforeExecution cfg s.toFuzzerState u.toUnitInput with
        totalInput := (beforeExecution cfg s.toFuzzerState u.toUnitInput).totalInput + 1 } := by
    rw [atExecution, setLists, hu]
    rfl
  rw [fuzzUnitIn, fuzzUnit]
  by_cases hhalted : s.halted = true
  · rw [if_pos hhalted, if_pos hhalted]
  · rw [if_neg hhalted, if_neg hhalted]
    dsimp only
    split
    · rfl
    · rw [addInterestingSeedIn_default, hlists]
      rfl

/-! ## When a fault set is saved -/

/-- The call gets to `ex_crash_handler`. -/
def ReachesExCrash (build : Build) (cfg : Config) (s : InjectionState) (u : InjectedInput) : Prop :=
  Executes cfg s.toFuzzerState u.toUnitInput ∧ u.exec.status = .crash ∧
    (eflag build (atExecution build cfg s u) u.exec ||
      cflag build (atExecution build cfg s u) u.exec) = true

theorem exCrashHandler_fuList (cfg : Config) (keeping : Bool) (s : InjectionState)
    (e : InjectedExecution) :
    (exCrashHandler cfg keeping s e).2.fuList
      = if isUniqueFault s.fuList s.errorList then saveCrashedFu s.fuList s.errorList
        else s.fuList := by
  rw [exCrashHandler]
  dsimp only
  split
  · next h =>
    rw [Bool.and_eq_true, Bool.not_eq_true'] at h
    rw [h.1]
    rfl
  · rfl

theorem atExecution_fuList (build : Build) (cfg : Config) (s : InjectionState)
    (u : InjectedInput) : (atExecution build cfg s u).fuList = s.fuList := by
  rw [atExecution, setLists]
  dsimp only
  split <;> cases u.errorList <;> rfl

/-- A hang is not run again, so that it saves nothing. -/
theorem exHangHandler_fuList (cfg : Config) (keeping : Bool) (s : InjectionState)
    (e rerun : InjectedExecution) : (exHangHandler cfg keeping s e rerun).2.fuList = s.fuList := by
  have htmout : ¬execTmout < hangTmout := by decide
  rw [exHangHandler]
  dsimp only
  split
  · rfl
  · rw [if_neg (fun h => htmout h.1), if_neg (fun h => htmout h.1)]

theorem keepInteresting_fuList (build : Build) (cfg : Config) (s : InjectionState)
    (e : InjectedExecution) : (keepInteresting build cfg s e).2.fuList = s.fuList := rfl

theorem keepInteresting_errorList (build : Build) (cfg : Config) (s : InjectionState)
    (e : InjectedExecution) : (keepInteresting build cfg s e).2.errorList = s.errorList := rfl

/-- A crash in which a list took part saves its fault set, unless it is no new one. -/
theorem addInterestingSeedIn_fuList_crash {build : Build} {cfg : Config} {s : InjectionState}
    {e : InjectedExecution} (hcrash : e.status = .crash)
    (hex : (eflag build s e || cflag build s e) = true) (rerun : InjectedExecution) :
    (addInterestingSeedIn build cfg s e rerun).2.fuList =
      if isUniqueFault s.fuList s.errorList then saveCrashedFu s.fuList s.errorList
      else s.fuList := by
  rw [addInterestingSeedIn]
  dsimp only
  rw [if_pos hex, hcrash]
  dsimp only
  rw [exCrashHandler_fuList, keepInteresting_fuList, keepInteresting_errorList]

/-- Nothing else saves one. -/
theorem addInterestingSeedIn_fuList_other {build : Build} {cfg : Config} {s : InjectionState}
    {e : InjectedExecution}
    (h : ¬(e.status = .crash ∧ (eflag build s e || cflag build s e) = true))
    (rerun : InjectedExecution) :
    (addInterestingSeedIn build cfg s e rerun).2.fuList = s.fuList := by
  rw [addInterestingSeedIn]
  dsimp only
  -- with neither flag the handlers are those of the plain build, which know no list
  by_cases hex : (eflag build s e || cflag build s e) = true
  · rw [if_pos hex]
    cases hstatus : e.status with
    | none => exact keepInteresting_fuList build cfg s e
    | tmout =>
      dsimp only
      rw [exHangHandler_fuList, keepInteresting_fuList]
    | crash => exact absurd ⟨hstatus, hex⟩ h
  · rw [if_neg hex]
    exact (InjectionState.setFindings_fuList _ _).trans (keepInteresting_fuList build cfg s e)

theorem fuzzUnitIn_of_executes {build : Build} {cfg : Config} {s : InjectionState}
    {u : InjectedInput} (h : Executes cfg s.toFuzzerState u.toUnitInput) :
    fuzzUnitIn build cfg s u
      = (addInterestingSeedIn build cfg (atExecution build cfg s u) u.exec u.rerun).2 := by
  rw [fuzzUnitIn, if_neg (by rw [h.1]; decide)]
  exact if_neg (by rw [h.2]; decide)

theorem fuzzUnitIn_fuList_of_not_executes {build : Build} {cfg : Config} {s : InjectionState}
    {u : InjectedInput} (h : ¬Executes cfg s.toFuzzerState u.toUnitInput) :
    (fuzzUnitIn build cfg s u).fuList = s.fuList := by
  rw [fuzzUnitIn]
  by_cases halive : s.halted = true
  · rw [if_pos halive]
  · have hgo : (beforeExecution cfg s.toFuzzerState u.toUnitInput).halted = true := by
      by_contra hgo
      exact h ⟨Bool.eq_false_iff.mpr halive, Bool.eq_false_iff.mpr hgo⟩
    rw [if_neg halive]
    dsimp only
    rw [if_pos hgo]

/-- **What a call saves**: the fault set, if the call gets to `ex_crash_handler` and the set is
a new one. -/
theorem fuzzUnitIn_fuList_of_reaches {build : Build} {cfg : Config} {s : InjectionState}
    {u : InjectedInput} (h : ReachesExCrash build cfg s u) :
    (fuzzUnitIn build cfg s u).fuList =
      if isUniqueFault s.fuList (atExecution build cfg s u).errorList then
        saveCrashedFu s.fuList (atExecution build cfg s u).errorList
      else s.fuList := by
  rw [fuzzUnitIn_of_executes h.1, addInterestingSeedIn_fuList_crash h.2.1 h.2.2, atExecution_fuList]

theorem fuzzUnitIn_fuList_of_not_reaches {build : Build} {cfg : Config} {s : InjectionState}
    {u : InjectedInput} (h : ¬ReachesExCrash build cfg s u) :
    (fuzzUnitIn build cfg s u).fuList = s.fuList := by
  by_cases hex : Executes cfg s.toFuzzerState u.toUnitInput
  · rw [fuzzUnitIn_of_executes hex, addInterestingSeedIn_fuList_other (fun hc => h ⟨hex, hc⟩),
      atExecution_fuList]
  · exact fuzzUnitIn_fuList_of_not_executes hex

end DistFuzz.Fuzzer
