import Mathlib.Data.List.Basic
import Mathlib.Data.UInt

/-!
# The test driver and its verdict (core/src/dst_test_main.cpp)

One test case: start the nodes, run the init operator, then normal operators and
critical ones in turns, check the nodes, and, if `check_after_fuzz` is set, run
normal operators again to see whether the system has recovered. The driver
reports a bug by `abort()`, when `check_failed` is set.

What an operator or the node manager does is an input of the model: start and
check give a `Bool`, an operator returns a `Bool` or throws. An exception that is
not caught ends the driver, and so does a division by zero in the computation of
a pause; neither is a verdict.

- `driver`: what `main` does from reading the random file on, with a record of
  what the verdict is about.
- `BugDue`: when the driver should report a bug.
- `SkipsRecovery`: the recovery check is reached and runs no operator, which the
  initial value of `all_operators_after_fuzzing_failed` turns into a bug.
- `verdict_iff`: the driver reports exactly the bugs that are due, unless so.
-/

namespace DistFuzz.Harness

/-! ## Inputs -/

/-- The options that decide what is run. `concurrency` is unset if the driver is
compiled with `NO_CONCURRENCY`. -/
structure DriverOptions where
  normalCount : Int
  criticCount : Int
  checkAfterFuzz : Bool
  fuzzTime : Bool
  sleepMs : UInt32
  sleepGranularity : UInt32
  concurrency : Bool

/-- The names of the registered operators. -/
structure DriverRegistry where
  normal : List String
  critical : List String

/-- `INIT_OPERATOR_NAME`. -/
def initOperatorName : String := "Init"

/-- What `_do` does. -/
inductive OpOutcome where
  | returned (b : Bool)
  | threw
deriving DecidableEq, Repr

/-- One turn of `run_some_normal_operators`: the byte that decides whether a
second operator is run, and the outcomes of the two. -/
structure NormalTurn where
  concurrentByte : UInt8
  first : OpOutcome
  second : OpOutcome

/-- One turn of the loop over critical operators. -/
structure CriticTurn where
  outcome : OpOutcome
  normal : Nat → NormalTurn

/-- One turn of the recovery check. -/
structure RecoveryTurn where
  indexByte : UInt8
  outcome : OpOutcome

/-- What happens in a run. -/
structure DriverEnv where
  randomFileOpens : Bool
  startAll : Bool
  init : OpOutcome
  normal : Nat → NormalTurn
  critic : Nat → CriticTurn
  check : Bool
  recovery : Nat → RecoveryTurn

/-! ## The phases -/

/-- How a driver can die without a verdict: by `SIGFPE`, or by `std::terminate`. -/
inductive Death where
  | sigfpe
  | terminate
deriving DecidableEq, Repr

/-- The pause between operators divides by zero. -/
def pauseFaults (o : DriverOptions) : Bool :=
  o.fuzzTime && (o.sleepGranularity == 0 || o.sleepMs / o.sleepGranularity == 0)

/-- How often a loop `for (i = 0; i < number && size > 0; i++)` turns. -/
def turns (number : Int) (size : Nat) : Nat := if size = 0 then 0 else number.toNat

/-- A turn of `run_some_normal_operators`; `none` if the driver survives it. -/
def normalTurn (o : DriverOptions) (t : NormalTurn) : Option Death :=
  if pauseFaults o then some .sigfpe
  else if t.first = .threw then some .terminate
  else if o.concurrency && t.concurrentByte < 150 && t.second = .threw then some .terminate
  else none

/-- `run_some_normal_operators`. -/
def runSomeNormalOperators (o : DriverOptions) (size : Nat) (ts : Nat → NormalTurn) :
    Option Death :=
  (List.range (turns o.normalCount size)).findSome? fun i => normalTurn o (ts i)

/-- `run_init_operator`, for the outcome: the operator is removed whatever it
returns. -/
def runInitOperator (reg : DriverRegistry) (env : DriverEnv) : Option Death :=
  if initOperatorName ∈ reg.normal ∧ env.init = .threw then some .terminate else none

/-- The normal operators after `run_init_operator`. -/
def normalOperators (reg : DriverRegistry) : List String := reg.normal.erase initOperatorName

/-- A turn of the loop over critical operators. -/
def criticTurn (o : DriverOptions) (size : Nat) (t : CriticTurn) : Option Death :=
  if pauseFaults o then some .sigfpe
  else if t.outcome = .threw then some .terminate
  else runSomeNormalOperators o size t.normal

/-- From the init operator to the last critical one. -/
def fuzz (o : DriverOptions) (reg : DriverRegistry) (env : DriverEnv) : Option Death :=
  let size := (normalOperators reg).length
  (runInitOperator reg env).or <|
    (runSomeNormalOperators o size env.normal).or <|
      (List.range (turns o.criticCount reg.critical.length)).findSome? fun i =>
        criticTurn o size (env.critic i)

/-- The operators the recovery check runs, each with its outcome. An exception
ends the loop. -/
def recoveryLoop (names : List String) : List RecoveryTurn → List (String × OpOutcome)
  | [] => []
  | t :: ts =>
    let name := names.getD (t.indexByte.toNat % names.length) ""
    if t.outcome = .threw then [(name, .threw)]
    else (name, t.outcome) :: recoveryLoop names ts

/-- `all_operators_after_fuzzing_failed` after the loop. -/
def allOperatorsAfterFuzzingFailed (ran : List (String × OpOutcome)) : Bool :=
  ran.foldl (fun failed r => if r.2 = .returned true then false else failed) true

/-- How the driver ends. -/
inductive Ending where
  | aborted
  | exited
  | died (d : Death)
deriving DecidableEq, Repr

/-- A run: the results of `start_all` and of the check after the critical
operators if they were called, the recovery operators that were run, and how it
ended. -/
structure DriverRun where
  startAll : Option Bool
  check : Option Bool
  recovery : List (String × OpOutcome)
  ending : Ending

/-- From the label `STOP` on. -/
def stop (checkFailed : Bool) : Ending := if checkFailed then .aborted else .exited

/-- The operators the recovery check runs. -/
def recoveryRun (o : DriverOptions) (reg : DriverRegistry) (env : DriverEnv) :
    List (String × OpOutcome) :=
  recoveryLoop (normalOperators reg)
    ((List.range (turns o.normalCount (normalOperators reg).length)).map env.recovery)

/-- `main`, with options that are accepted and a node manager registered. -/
def driver (o : DriverOptions) (reg : DriverRegistry) (env : DriverEnv) : DriverRun :=
  if !env.randomFileOpens then ⟨none, none, [], .exited⟩
  else if !env.startAll then ⟨some false, none, [], stop true⟩
  else
    match fuzz o reg env with
    | some d => ⟨some true, none, [], .died d⟩
    | none =>
      if !env.check then ⟨some true, some false, [], stop true⟩
      else if !o.checkAfterFuzz then ⟨some true, some true, [], stop false⟩
      else
        let ran := recoveryRun o reg env
        if ran.any (·.2 = .threw) then ⟨some true, some true, ran, .died .terminate⟩
        else ⟨some true, some true, ran, stop (allOperatorsAfterFuzzingFailed ran)⟩

/-! ## The verdict -/

/-- A bug is due: the nodes could not be started, or they are not in the state
they should be in after fuzzing, or recovery was checked with at least one
operator and all of them failed. -/
def BugDue (o : DriverOptions) (r : DriverRun) : Prop :=
  r.startAll = some false ∨ r.check = some false ∨
    (o.checkAfterFuzz = true ∧ r.recovery ≠ [] ∧ ∀ x ∈ r.recovery, x.2 = .returned false)

/-- The recovery check is reached and runs no operator: none is asked for, or
there is none besides the init operator. Without normal operators, only the init
operator and the critical ones can keep the driver from getting there. -/
structure SkipsRecovery (o : DriverOptions) (reg : DriverRegistry) (env : DriverEnv) : Prop where
  opens : env.randomFileOpens = true
  started : env.startAll = true
  checked : env.check = true
  requested : o.checkAfterFuzz = true
  noOperators : o.normalCount ≤ 0 ∨ normalOperators reg = []
  initReturns : initOperatorName ∈ reg.normal → env.init ≠ .threw
  criticsReturn : 0 < o.criticCount → reg.critical ≠ [] → pauseFaults o = false ∧
    ∀ i < o.criticCount.toNat, (env.critic i).outcome ≠ .threw

/-- The flag is as its name says, starting from a list that is empty. -/
theorem allFailed_iff (ran : List (String × OpOutcome)) :
    allOperatorsAfterFuzzingFailed ran = true ↔ ∀ x ∈ ran, x.2 ≠ .returned true := by
  have hfold : ∀ (ran : List (String × OpOutcome)) (b : Bool),
      ran.foldl (fun failed r => if r.2 = .returned true then false else failed) b = true ↔
        b = true ∧ ∀ x ∈ ran, x.2 ≠ .returned true := by
    intro ran
    induction ran with
    | nil => simp
    | cons x ran ih =>
      intro b
      rw [List.foldl_cons, ih]
      by_cases hx : x.2 = .returned true <;> simp [hx]
  unfold allOperatorsAfterFuzzingFailed
  rw [hfold, and_iff_right rfl]

theorem recoveryLoop_eq_nil_iff (names : List String) (ts : List RecoveryTurn) :
    recoveryLoop names ts = [] ↔ ts = [] := by
  cases ts with
  | nil => exact ⟨fun _ => rfl, fun _ => rfl⟩
  | cons t ts =>
    unfold recoveryLoop
    dsimp only
    split <;> simp

theorem turns_eq_zero_iff (number : Int) (size : Nat) :
    turns number size = 0 ↔ number ≤ 0 ∨ size = 0 := by
  unfold turns
  split
  · next h => simp [h]
  · next h => simp [h]

/-- No recovery operator is run exactly if none is asked for or there is none. -/
theorem recoveryRun_eq_nil_iff (o : DriverOptions) (reg : DriverRegistry) (env : DriverEnv) :
    recoveryRun o reg env = [] ↔ o.normalCount ≤ 0 ∨ normalOperators reg = [] := by
  unfold recoveryRun
  rw [recoveryLoop_eq_nil_iff, List.map_eq_nil_iff, List.range_eq_nil, turns_eq_zero_iff,
    List.length_eq_zero_iff]

/-- Without normal operators, `run_some_normal_operators` does nothing. -/
theorem runSomeNormalOperators_none {o : DriverOptions} {size : Nat}
    (h : turns o.normalCount size = 0) (ts : Nat → NormalTurn) :
    runSomeNormalOperators o size ts = none := by
  unfold runSomeNormalOperators
  rw [h]
  rfl

theorem runInitOperator_eq_none_iff (reg : DriverRegistry) (env : DriverEnv) :
    runInitOperator reg env = none ↔ (initOperatorName ∈ reg.normal → env.init ≠ .threw) := by
  unfold runInitOperator
  split
  · next h => simp [h]
  · next h => simpa using h

theorem criticTurn_eq_none_iff {o : DriverOptions} {size : Nat}
    (h : turns o.normalCount size = 0) (t : CriticTurn) :
    criticTurn o size t = none ↔ pauseFaults o = false ∧ t.outcome ≠ .threw := by
  unfold criticTurn
  rw [runSomeNormalOperators_none h]
  split
  · next hpause => simp [hpause]
  · next hpause =>
    rw [and_iff_right (Bool.eq_false_of_not_eq_true hpause)]
    split
    · next hthrew => simp [hthrew]
    · next hthrew => exact ⟨fun _ => hthrew, fun _ => rfl⟩

/-- Then the driver gets through the fuzzing phase exactly if the init operator
and the critical ones let it. -/
theorem fuzz_eq_none_iff {o : DriverOptions} {reg : DriverRegistry} {env : DriverEnv}
    (hno : o.normalCount ≤ 0 ∨ normalOperators reg = []) :
    fuzz o reg env = none ↔ (initOperatorName ∈ reg.normal → env.init ≠ .threw) ∧
      (0 < o.criticCount → reg.critical ≠ [] → pauseFaults o = false ∧
        ∀ i < o.criticCount.toNat, (env.critic i).outcome ≠ .threw) := by
  have hturns : turns o.normalCount (normalOperators reg).length = 0 :=
    (turns_eq_zero_iff ..).mpr (hno.imp_right List.length_eq_zero_iff.mpr)
  unfold fuzz
  dsimp only
  rw [Option.or_eq_none_iff, Option.or_eq_none_iff, runInitOperator_eq_none_iff,
    and_iff_right (runSomeNormalOperators_none hturns env.normal), List.findSome?_eq_none_iff]
  refine and_congr_right fun _ => ?_
  by_cases hcritic : 0 < o.criticCount ∧ reg.critical ≠ []
  · -- the loop turns at least once, so the pause is computed
    obtain ⟨hpos, hne⟩ := hcritic
    have hsize : turns o.criticCount reg.critical.length = o.criticCount.toNat :=
      if_neg fun h => hne (List.length_eq_zero_iff.mp h)
    rw [hsize]
    constructor
    · intro h _ _
      have hturn := fun i hi => (criticTurn_eq_none_iff hturns _).mp (h i (List.mem_range.mpr hi))
      exact ⟨(hturn 0 (by omega)).1, fun i hi => (hturn i hi).2⟩
    · intro h i hi
      obtain ⟨hpause, hall⟩ := h hpos hne
      exact (criticTurn_eq_none_iff hturns _).mpr ⟨hpause, hall i (List.mem_range.mp hi)⟩
  · have hzero : turns o.criticCount reg.critical.length = 0 := by
      rw [turns_eq_zero_iff, List.length_eq_zero_iff]
      by_contra h
      rw [not_or] at h
      exact hcritic ⟨by omega, h.2⟩
    rw [hzero]
    exact ⟨fun _ hpos hne => absurd ⟨hpos, hne⟩ hcritic, fun _ i hi => by cases hi⟩

/-- The end of the recovery check. -/
def recoveryEnding (ran : List (String × OpOutcome)) : Ending :=
  if ran.any (·.2 = .threw) then .died .terminate else stop (allOperatorsAfterFuzzingFailed ran)

/-- The recovery check reports a bug exactly if all operators it ran returned
`false`, of which there may be none. -/
theorem recoveryEnding_eq_aborted_iff (ran : List (String × OpOutcome)) :
    recoveryEnding ran = .aborted ↔ ∀ x ∈ ran, x.2 = .returned false := by
  have hsplit : recoveryEnding ran = .aborted ↔
      (∀ x ∈ ran, x.2 ≠ .threw) ∧ ∀ x ∈ ran, x.2 ≠ .returned true := by
    unfold recoveryEnding stop
    rw [← allFailed_iff]
    cases hthrew : ran.any (·.2 = .threw) with
    | true =>
      obtain ⟨x, hx, hx'⟩ := List.any_eq_true.mp hthrew
      simp only [if_true]
      exact iff_of_false (by decide) fun h => h.1 x hx (of_decide_eq_true hx')
    | false =>
      rw [and_iff_right fun x hx => by simpa using List.any_eq_false.mp hthrew x hx]
      cases allOperatorsAfterFuzzingFailed ran <;> decide
  rw [hsplit, ← forall₂_and]
  refine forall₂_congr fun x _ => ?_
  cases x.2 with
  | threw => simp
  | returned b => cases b <;> simp

/-- The paths through `main`. -/
theorem driver_cases (o : DriverOptions) (reg : DriverRegistry) (env : DriverEnv) :
    (env.randomFileOpens = false ∧ driver o reg env = ⟨none, none, [], .exited⟩) ∨
    (env.startAll = false ∧ driver o reg env = ⟨some false, none, [], .aborted⟩) ∨
    (∃ d, fuzz o reg env = some d ∧ driver o reg env = ⟨some true, none, [], .died d⟩) ∨
    (env.check = false ∧ driver o reg env = ⟨some true, some false, [], .aborted⟩) ∨
    (o.checkAfterFuzz = false ∧ driver o reg env = ⟨some true, some true, [], .exited⟩) ∨
    (env.randomFileOpens = true ∧ env.startAll = true ∧ fuzz o reg env = none ∧
      env.check = true ∧ o.checkAfterFuzz = true ∧
      driver o reg env = ⟨some true, some true, recoveryRun o reg env,
        recoveryEnding (recoveryRun o reg env)⟩) := by
  -- the source's checks in order, each with what is returned if it fails
  unfold driver
  cases hopen : env.randomFileOpens with
  | false => exact .inl ⟨rfl, rfl⟩
  | true =>
    cases hstart : env.startAll with
    | false => exact .inr (.inl ⟨rfl, rfl⟩)
    | true =>
      cases hfuzz : fuzz o reg env with
      | some d => exact .inr (.inr (.inl ⟨d, rfl, rfl⟩))
      | none =>
        cases hcheck : env.check with
        | false => exact .inr (.inr (.inr (.inl ⟨rfl, rfl⟩)))
        | true =>
          cases hafter : o.checkAfterFuzz with
          | false => exact .inr (.inr (.inr (.inr (.inl ⟨rfl, rfl⟩))))
          | true =>
            refine .inr (.inr (.inr (.inr (.inr ⟨rfl, rfl, rfl, rfl, rfl, ?_⟩))))
            unfold recoveryEnding
            dsimp only [Bool.not_true]
            rw [if_neg (by decide), if_neg (by decide), if_neg (by decide), if_neg (by decide)]
            split <;> rfl

/-- **The verdict**: for all options, registered operators and outcomes, the driver
aborts exactly if a bug is due, unless the recovery check is reached and runs no
operator. In that case it aborts, and no bug is due. -/
theorem verdict_iff (o : DriverOptions) (reg : DriverRegistry) (env : DriverEnv) :
    ((driver o reg env).ending = .aborted ↔ BugDue o (driver o reg env)) ↔
      ¬SkipsRecovery o reg env := by
  unfold BugDue
  rcases driver_cases o reg env with ⟨h, hrun⟩ | ⟨h, hrun⟩ | ⟨d, h, hrun⟩ | ⟨h, hrun⟩ | ⟨h, hrun⟩ |
    ⟨hopen, hstart, hfuzz, hcheck, hafter, hrun⟩
  · rw [hrun]
    exact iff_of_true (by simp) fun hs => by simp [hs.opens] at h
  · rw [hrun]
    exact iff_of_true (by simp) fun hs => by simp [hs.started] at h
  · rw [hrun]
    refine iff_of_true (by simp) fun hs => ?_
    have hnone := (fuzz_eq_none_iff hs.noOperators).mpr ⟨hs.initReturns, hs.criticsReturn⟩
    exact absurd (h.symm.trans hnone) (by simp)
  · rw [hrun]
    exact iff_of_true (by simp) fun hs => by simp [hs.checked] at h
  · rw [hrun]
    exact iff_of_true (by simp) fun hs => by simp [hs.requested] at h
  · rw [hrun]
    dsimp only
    rw [recoveryEnding_eq_aborted_iff]
    by_cases hnil : recoveryRun o reg env = []
    · -- the flag keeps its initial value
      have hno := (recoveryRun_eq_nil_iff o reg env).mp hnil
      obtain ⟨hinit, hcritics⟩ := (fuzz_eq_none_iff hno).mp hfuzz
      refine iff_of_false ?_ fun hs => hs ⟨hopen, hstart, hcheck, hafter, hno, hinit, hcritics⟩
      rw [hnil]
      simp
    · refine iff_of_true ?_ fun hs => hnil ((recoveryRun_eq_nil_iff o reg env).mpr hs.noOperators)
      simp [hafter, hnil]

/-- One turn of each kind, everything returning `true`. -/
def quietEnv : DriverEnv :=
  { randomFileOpens := true
    startAll := true
    init := .returned true
    normal := fun _ => ⟨0, .returned true, .returned true⟩
    critic := fun _ => ⟨.returned true, fun _ => ⟨0, .returned true, .returned true⟩⟩
    check := true
    recovery := fun _ => ⟨0, .returned true⟩ }

/-- With `--normal_count=0 --check_after_fuzz=true` a run in which nothing fails is
reported as a bug. -/
theorem quietEnv_aborts :
    ¬((driver ⟨0, 2, true, true, 200, 10, true⟩ ⟨["Init", "Read"], ["RandomKill"]⟩ quietEnv).ending
        = .aborted ↔
      BugDue ⟨0, 2, true, true, 200, 10, true⟩
        (driver ⟨0, 2, true, true, 200, 10, true⟩ ⟨["Init", "Read"], ["RandomKill"]⟩
          quietEnv)) := by
  intro h
  rcases h.mp (by decide) with hstart | hcheck | ⟨-, hne, -⟩
  · exact absurd hstart (by decide)
  · exact absurd hcheck (by decide)
  · exact hne (by decide)

end DistFuzz.Harness
