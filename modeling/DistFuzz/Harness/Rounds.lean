import DistFuzz.Harness.TestMain
import DistFuzz.Lib.Runs
import DistFuzz.Random

/-!
# The rounds of the driver and what they draw (core/src/dst_test_main.cpp:45–93, 348–372)

The driver takes all its decisions from one random file: how long it pauses, which
operator it runs, whether it runs a second one beside it. `TestMain` is about how a
run ends; here are the rounds themselves, with the bytes each of them draws.

In `run_some_normal_operators` the byte for the first operator is stored in a
variable `index` of the inner block and the thread captures the outer one, which is
zero.

- `pauseMs`, `pause`: the pause before an operator; `sleep_arithmetic_iff`, when it is
  what it should be.
- `normalRound`, `runNormalRounds`, `criticRound`, `fuzzRounds`: the loops.
- `first_operator_iff`: which operator the first thread of a round runs.
- `runSomeNormalOperators_eq`: the rounds fault where `TestMain` says so.
-/

namespace DistFuzz.Harness

open DistFuzz.Lib

/-! ## Pauses -/

/-- `sleep_granularity * (byte % (sleep_ms / sleep_granularity))`, in `uint32_t`;
`none` is a division by zero. -/
def pauseMs (o : DriverOptions) (byte : UInt8) : Option UInt32 :=
  if o.sleepGranularity = 0 then none
  else if o.sleepMs / o.sleepGranularity = 0 then none
  else some (o.sleepGranularity * (byte.toUInt32 % (o.sleepMs / o.sleepGranularity)))

/-- The pause before an operator. -/
def pause (o : DriverOptions) (r : RandomFile) : Option (UInt32 × RandomFile) :=
  if o.fuzzTime then (pauseMs o r.getRandomUint8.1).map (·, r.getRandomUint8.2)
  else some (o.sleepMs, r)

/-- The pause is defined, its computation does not wrap, and it is shorter than
`sleep_ms`. -/
def PauseOk (o : DriverOptions) (byte : UInt8) : Prop :=
  ∃ p, pauseMs o byte = some p ∧
    p.toNat = o.sleepGranularity.toNat
      * (byte.toNat % (o.sleepMs.toNat / o.sleepGranularity.toNat)) ∧
    p < o.sleepMs

/-- The granularity divides `sleep_ms` into at least one step. -/
def GranularityFits (o : DriverOptions) : Prop :=
  0 < o.sleepGranularity ∧ o.sleepGranularity ≤ o.sleepMs

instance (o : DriverOptions) : Decidable (GranularityFits o) :=
  inferInstanceAs (Decidable (_ ∧ _))

/-- There is a division by zero exactly if it does not. -/
theorem pauseMs_eq_none_iff (o : DriverOptions) (byte : UInt8) :
    pauseMs o byte = none ↔ ¬GranularityFits o := by
  have hpos : 0 < o.sleepGranularity ↔ o.sleepGranularity.toNat ≠ 0 := by
    rw [UInt32.lt_iff_toNat_lt]
    exact Nat.pos_iff_ne_zero
  have hzero : ∀ x : UInt32, x = 0 ↔ x.toNat = 0 := fun x => UInt32.toNat_inj.symm
  unfold pauseMs GranularityFits
  rw [hpos, UInt32.le_iff_toNat_le]
  -- the two divisors are the granularity and how often it goes into `sleep_ms`
  split
  · next hg => simp [(hzero _).mp hg]
  · next hg =>
    rw [hzero] at hg
    split
    · next hd =>
      rw [hzero, UInt32.toNat_div, Nat.div_eq_zero_iff] at hd
      simp only [true_iff]
      omega
    · next hd =>
      rw [hzero, UInt32.toNat_div, Nat.div_eq_zero_iff] at hd
      simp only [reduceCtorEq, false_iff, not_not]
      omega

/-- The steps of the pause stay below `sleep_ms`. -/
theorem granularity_mul_lt {g ms b : Nat} (hg : 0 < g) (hle : g ≤ ms) :
    g * (b % (ms / g)) < ms := by
  have hsteps : 0 < ms / g := Nat.div_pos hle hg
  calc g * (b % (ms / g)) < g * (ms / g) := by
        exact Nat.mul_lt_mul_of_pos_left (Nat.mod_lt b hsteps) hg
    _ ≤ ms := Nat.mul_div_le ms g

/-- **The pause**, for any options and any byte, is what it should be exactly if
`sleep_granularity` is positive and at most `sleep_ms`. -/
theorem pauseOk_iff (o : DriverOptions) (byte : UInt8) : PauseOk o byte ↔ GranularityFits o := by
  constructor
  · rintro ⟨p, hp, -⟩
    by_contra hfits
    rw [(pauseMs_eq_none_iff o byte).mpr hfits] at hp
    cases hp
  · intro hfits
    obtain ⟨p, hp⟩ := Option.ne_none_iff_exists'.mp
      (mt (pauseMs_eq_none_iff o byte).mp (not_not.mpr hfits))
    have hlt := granularity_mul_lt (b := byte.toNat) (UInt32.lt_iff_toNat_lt.mp hfits.1)
      (UInt32.le_iff_toNat_le.mp hfits.2)
    have hval : p.toNat = o.sleepGranularity.toNat
        * (byte.toNat % (o.sleepMs.toNat / o.sleepGranularity.toNat)) := by
      unfold pauseMs at hp
      split at hp
      · cases hp
      · split at hp
        · cases hp
        · obtain rfl := Option.some.inj hp
          -- the product is below `sleep_ms`, so it does not wrap
          rw [UInt32.toNat_mul, UInt32.toNat_mod, UInt32.toNat_div, UInt8.toNat_toUInt32]
          exact Nat.mod_eq_of_lt (hlt.trans o.sleepMs.toNat_lt)
    exact ⟨p, hp, hval, UInt32.lt_iff_toNat_lt.mpr (hval ▸ hlt)⟩

/-- `TestMain` faults at the same pauses. -/
theorem pauseFaults_eq (o : DriverOptions) :
    pauseFaults o = (o.fuzzTime && !decide (GranularityFits o)) := by
  have hnone := pauseMs_eq_none_iff o 0
  unfold pauseMs at hnone
  unfold pauseFaults
  congr 1
  rw [Bool.eq_iff_iff, Bool.or_eq_true, beq_iff_eq, beq_iff_eq, Bool.not_eq_true',
    decide_eq_false_iff_not, ← hnone]
  split
  · next hg => simp [hg]
  · next hg =>
    split
    · next hd => simp [hd]
    · next hd => simp [hg, hd]

/-! ## Rounds -/

/-- The options of the rounds; `fuzzNormalEvents` is unset by
`--no_fuzz_normal_events`. -/
structure RoundOptions extends DriverOptions where
  fuzzNormalEvents : Bool

/-- A round of `run_some_normal_operators`: the pause, the byte drawn for the first
operator, and the positions of the operators that the two threads run. -/
structure Round where
  pause : UInt32
  indexByte : Option UInt8
  first : Nat
  second : Option Nat
deriving DecidableEq, Repr

/-- The block of the first operator: the byte it draws. What is computed from it
goes to the inner `index` and is dropped. -/
def drawFirst (o : RoundOptions) (r : RandomFile) : Option UInt8 × RandomFile :=
  if o.fuzzNormalEvents then (some r.getRandomUint8.1, r.getRandomUint8.2) else (none, r)

/-- The second operator, if one is run. -/
def drawSecond (o : RoundOptions) (operatorSize : Nat) (r : RandomFile) :
    Option Nat × RandomFile :=
  if o.concurrency then
    if r.getRandomUint8.1 < 150 then
      (some (r.getRandomUint8.2.getRandomUint8.1.toNat % operatorSize),
        r.getRandomUint8.2.getRandomUint8.2)
    else (none, r.getRandomUint8.2)
  else (none, r)

/-- The body of the loop of `run_some_normal_operators`. An operator may draw from the same
stream itself; what it draws is not modelled, the rounds are those of operators that draw
nothing. -/
def normalRound (o : RoundOptions) (operatorSize : Nat) (r : RandomFile) :
    Option (Round × RandomFile) :=
  (pause o.toDriverOptions r).map fun p =>
    let index := 0
    let b := drawFirst o p.2
    let second := drawSecond o operatorSize b.2
    (⟨p.1, b.1, index, second.1⟩, second.2)

/-- The byte that is drawn for the pause at the end. -/
def drawPause (o : DriverOptions) (r : RandomFile) : RandomFile :=
  if o.fuzzTime then r.getRandomUint8.2 else r

/-- `run_some_normal_operators`. -/
def runNormalRounds (o : RoundOptions) (operatorSize : Nat) (r : RandomFile) :
    Option (List Round × RandomFile) :=
  (turnsOf (normalRound o operatorSize) (turns o.normalCount operatorSize) r).map fun x =>
    (x.1, drawPause o.toDriverOptions x.2)

/-- A round of the loop over critical operators. -/
structure CriticRound where
  pause : UInt32
  index : Nat
  normal : List Round
deriving DecidableEq, Repr

/-- The body of that loop, again with operators that draw nothing. -/
def criticRound (o : RoundOptions) (normalSize criticalSize : Nat) (r : RandomFile) :
    Option (CriticRound × RandomFile) :=
  (pause o.toDriverOptions r).bind fun p =>
    (runNormalRounds o normalSize p.2.getRandomUint8.2).map fun x =>
      (⟨p.1, p.2.getRandomUint8.1.toNat % criticalSize, x.1⟩, x.2)

/-- The rounds of a test case, normal ones and critical ones, from the pause after
`start_all` on. -/
def fuzzRounds (o : RoundOptions) (normalSize criticalSize : Nat) (r : RandomFile) :
    Option ((List Round × List CriticRound) × RandomFile) :=
  (runNormalRounds o normalSize (drawPause o.toDriverOptions r)).bind fun x =>
    (turnsOf (criticRound o normalSize criticalSize) (turns o.criticCount criticalSize) x.2).map
      fun y => ((x.1, y.1), y.2)

/-- The pauses of a critical round and of the normal ones in it. -/
def CriticRound.pauses (x : CriticRound) : List UInt32 := x.pause :: x.normal.map Round.pause

/-- The pauses before operators in a test case. -/
def allPauses (rounds : List Round × List CriticRound) : List UInt32 :=
  rounds.1.map Round.pause ++ rounds.2.flatMap CriticRound.pauses

/-! ## The pauses of a test case -/

section Pauses

variable {o : RoundOptions} (htime : o.fuzzTime = true)
include htime

/-- If the granularity fits, a round pauses for less than `sleep_ms`. -/
theorem pause_lt (hfits : GranularityFits o.toDriverOptions) (r : RandomFile) :
    ∃ p r', pause o.toDriverOptions r = some (p, r') ∧ p < o.sleepMs := by
  obtain ⟨p, hp, -, hlt⟩ := (pauseOk_iff o.toDriverOptions r.getRandomUint8.1).mpr hfits
  refine ⟨p, r.getRandomUint8.2, ?_, hlt⟩
  rw [pause, if_pos htime, hp]
  rfl

/-- If it does not, there is no pause. -/
theorem pause_eq_none (hfits : ¬GranularityFits o.toDriverOptions) (r : RandomFile) :
    pause o.toDriverOptions r = none := by
  rw [pause, if_pos htime, (pauseMs_eq_none_iff _ _).mpr hfits]
  rfl

theorem normalRound_lt (hfits : GranularityFits o.toDriverOptions) (size : Nat) (r : RandomFile) :
    ∃ x r', normalRound o size r = some (x, r') ∧ x.pause < o.sleepMs := by
  obtain ⟨p, r', hp, hlt⟩ := pause_lt htime hfits r
  rw [normalRound, hp]
  exact ⟨_, _, rfl, hlt⟩

theorem runNormalRounds_lt (hfits : GranularityFits o.toDriverOptions) (size : Nat)
    (r : RandomFile) :
    ∃ xs r', runNormalRounds o size r = some (xs, r') ∧ ∀ x ∈ xs, x.pause < o.sleepMs := by
  obtain ⟨xs, r', hxs, -, hall⟩ :=
    turnsOf_spec (normalRound_lt htime hfits size) (turns o.normalCount size) r
  refine ⟨xs, drawPause o.toDriverOptions r', ?_, hall⟩
  rw [runNormalRounds, hxs, Option.map_some]

theorem criticRound_lt (hfits : GranularityFits o.toDriverOptions) (normalSize criticalSize : Nat)
    (r : RandomFile) :
    ∃ x r', criticRound o normalSize criticalSize r = some (x, r') ∧
      ∀ p ∈ x.pauses, p < o.sleepMs := by
  obtain ⟨p, r', hp, hlt⟩ := pause_lt htime hfits r
  obtain ⟨xs, r'', hxs, hall⟩ := runNormalRounds_lt htime hfits normalSize r'.getRandomUint8.2
  refine ⟨⟨p, r'.getRandomUint8.1.toNat % criticalSize, xs⟩, r'', ?_, ?_⟩
  · rw [criticRound, hp, Option.bind_some, hxs, Option.map_some]
  · exact List.forall_mem_cons.mpr ⟨hlt, List.forall_mem_map.mpr hall⟩

/-- The whole test case pauses for less than `sleep_ms` each time. -/
theorem fuzzRounds_lt (hfits : GranularityFits o.toDriverOptions) (normalSize criticalSize : Nat)
    (r : RandomFile) :
    ∃ rounds r', fuzzRounds o normalSize criticalSize r = some (rounds, r') ∧
      ∀ p ∈ allPauses rounds, p < o.sleepMs := by
  obtain ⟨xs, r', hxs, hnormal⟩ :=
    runNormalRounds_lt htime hfits normalSize (drawPause o.toDriverOptions r)
  -- the critical rounds go on with the stream where the normal ones left it
  obtain ⟨ys, r'', hys, -, hcritic⟩ := turnsOf_spec
    (criticRound_lt htime hfits normalSize criticalSize) (turns o.criticCount criticalSize) r'
  refine ⟨(xs, ys), r'', ?_, fun p hp => ?_⟩
  · rw [fuzzRounds, hxs, Option.bind_some, hys, Option.map_some]
  · rcases List.mem_append.mp hp with hp | hp
    · obtain ⟨x, hx, rfl⟩ := List.mem_map.mp hp
      exact hnormal x hx
    · obtain ⟨y, hy, hp⟩ := List.mem_flatMap.mp hp
      exact hcritic y hy p hp

/-- The first pause of a test case kills the driver if the granularity does not
fit. -/
theorem fuzzRounds_eq_none (hfits : ¬GranularityFits o.toDriverOptions)
    {normalSize criticalSize : Nat}
    (hturn : 0 < turns o.normalCount normalSize ∨ 0 < turns o.criticCount criticalSize)
    (r : RandomFile) : fuzzRounds o normalSize criticalSize r = none := by
  rw [fuzzRounds]
  rcases Nat.eq_zero_or_pos (turns o.normalCount normalSize) with hzero | hpos
  · have hcritic : ∀ r, criticRound o normalSize criticalSize r = none := fun r => by
      rw [criticRound, pause_eq_none htime hfits, Option.bind_none]
    rw [runNormalRounds, hzero, turnsOf, Option.map_some, Option.bind_some,
      turnsOf_eq_none hcritic (hturn.resolve_left (by omega)), Option.map_none]
  · have hnormal : ∀ r, normalRound o normalSize r = none := fun r => by
      rw [normalRound, pause_eq_none htime hfits, Option.map_none]
    rw [runNormalRounds, turnsOf_eq_none hnormal hpos, Option.map_none, Option.bind_none]

end Pauses

/-- **Sleep arithmetic.** With time fuzzing, for any `sleep_ms` and
`sleep_granularity` and any random byte, the pause is defined, does not wrap and is
shorter than `sleep_ms`, if and only if the granularity is positive and at most
`sleep_ms`. A test case that has an operator to run then gets through with such
pauses, and else through none. -/
theorem sleep_arithmetic_iff (o : RoundOptions) (htime : o.fuzzTime = true) :
    (∀ byte, PauseOk o.toDriverOptions byte ↔ GranularityFits o.toDriverOptions) ∧
    ∀ normalSize criticalSize r,
      0 < turns o.normalCount normalSize ∨ 0 < turns o.criticCount criticalSize →
      ((∃ rounds r', fuzzRounds o normalSize criticalSize r = some (rounds, r') ∧
          ∀ p ∈ allPauses rounds, p < o.sleepMs) ↔ GranularityFits o.toDriverOptions) := by
  refine ⟨pauseOk_iff o.toDriverOptions, fun normalSize criticalSize r hturn => ?_⟩
  refine ⟨?_, fun hfits => ?_⟩
  · rintro ⟨rounds, r', hrun, -⟩
    by_contra hfits
    rw [fuzzRounds_eq_none htime hfits hturn] at hrun
    cases hrun
  · exact fuzzRounds_lt htime hfits normalSize criticalSize r

/-- The default options. -/
def defaultOptions : RoundOptions :=
  { normalCount := 2, criticCount := 2, checkAfterFuzz := false, fuzzTime := true, sleepMs := 200,
    sleepGranularity := 10, concurrency := true, fuzzNormalEvents := true }

/-- They fit. -/
theorem sleep_arithmetic_default :
    defaultOptions.fuzzTime = true ∧ PauseOk defaultOptions.toDriverOptions 255 :=
  ⟨rfl, ((sleep_arithmetic_iff defaultOptions rfl).1 255).mpr (by decide)⟩

/-- With `--sleep_ms=5` the remainder is taken modulo zero. -/
theorem sleepFive_faults :
    ¬PauseOk { defaultOptions with sleepMs := 5 }.toDriverOptions 0 := by
  rw [pauseOk_iff]
  decide

/-! ## Which operators are run -/

/-- The first thread runs the operator that the byte drawn for it selects. -/
def FirstSelected (operatorSize : Nat) (x : Round) : Prop :=
  ∃ b, x.indexByte = some b ∧ x.first = b.toNat % operatorSize

/-- That byte is a multiple of the number of operators. -/
def SelectsZero (operatorSize : Nat) (x : Round) : Prop :=
  ∃ b, x.indexByte = some b ∧ operatorSize ∣ b.toNat

/-- In every round the first thread runs operator zero. -/
theorem normalRound_first {o : RoundOptions} {size : Nat} {r r' : RandomFile} {x : Round}
    (h : normalRound o size r = some (x, r')) : x.first = 0 := by
  obtain ⟨p, -, heq⟩ := Option.map_eq_some_iff.mp h
  obtain ⟨rfl, -⟩ := Prod.mk.inj heq
  rfl

theorem runNormalRounds_first {o : RoundOptions} {size : Nat} {r r' : RandomFile}
    {xs : List Round} (h : runNormalRounds o size r = some (xs, r')) {x : Round} (hx : x ∈ xs) :
    x.first = 0 := by
  obtain ⟨y, hy, heq⟩ := Option.map_eq_some_iff.mp h
  obtain ⟨rfl, -⟩ := Prod.mk.inj heq
  obtain ⟨t, t', hturn⟩ := turnsOf_mem hy hx
  exact normalRound_first hturn

theorem firstSelected_iff {size : Nat} {x : Round} (hfirst : x.first = 0) :
    FirstSelected size x ↔ SelectsZero size x := by
  refine exists_congr fun b => and_congr_right fun _ => ?_
  rw [hfirst, Nat.dvd_iff_mod_eq_zero, eq_comm]

/-- A round can be had as long as the pauses do not fault. -/
theorem runNormalRounds_length {o : RoundOptions} (hpause : pauseFaults o.toDriverOptions = false)
    (size : Nat) (r : RandomFile) :
    ∃ xs r', runNormalRounds o size r = some (xs, r') ∧
      xs.length = turns o.normalCount size := by
  have hround : ∀ r, ∃ x r', normalRound o size r = some (x, r') ∧ True := by
    intro r
    -- the pause is the only part of a round that can fault
    obtain ⟨p, hp⟩ : ∃ p, pause o.toDriverOptions r = some p := by
      rw [pauseFaults_eq, Bool.and_eq_false_iff] at hpause
      rw [pause]
      split
      · next htime =>
        have hfits : GranularityFits o.toDriverOptions := by simpa [htime] using hpause
        obtain ⟨p, hp⟩ := Option.ne_none_iff_exists'.mp
          (mt (pauseMs_eq_none_iff _ r.getRandomUint8.1).mp (not_not.mpr hfits))
        exact ⟨_, by rw [hp, Option.map_some]⟩
      · exact ⟨_, rfl⟩
    rw [normalRound, hp]
    exact ⟨_, _, rfl, trivial⟩
  obtain ⟨xs, r', hxs, hlen, -⟩ := turnsOf_spec hround (turns o.normalCount size) r
  refine ⟨xs, drawPause o.toDriverOptions r', ?_, hlen⟩
  rw [runNormalRounds, hxs, Option.map_some]

/-- **The rounds refine `run_some_normal_operators` of `TestMain`**: if no operator
throws, the driver dies there exactly if the rounds fault. -/
theorem runSomeNormalOperators_eq (o : RoundOptions) (size : Nat) {ts : Nat → NormalTurn}
    (hreturn : ∀ i, (ts i).first ≠ .threw ∧ (ts i).second ≠ .threw) (r : RandomFile) :
    runSomeNormalOperators o.toDriverOptions size ts
      = if (runNormalRounds o size r).isNone then some .sigfpe else none := by
  -- without a round there is no pause that could fault
  rcases Nat.eq_zero_or_pos (turns o.normalCount size) with hzero | hpos
  · rw [runSomeNormalOperators_none hzero, runNormalRounds, hzero]
    rfl
  · cases hpause : pauseFaults o.toDriverOptions with
    | false =>
      obtain ⟨xs, r', hrun, -⟩ := runNormalRounds_length hpause size r
      rw [hrun, Option.isNone_some, if_neg (by decide), runSomeNormalOperators,
        List.findSome?_eq_none_iff]
      intro i _
      obtain ⟨hfirst, hsecond⟩ := hreturn i
      rw [normalTurn, hpause, if_neg (by decide), if_neg hfirst, if_neg (by simp [hsecond])]
    | true =>
      obtain ⟨htime, hfits⟩ : o.fuzzTime = true ∧ ¬GranularityFits o.toDriverOptions := by
        rw [pauseFaults_eq] at hpause
        simpa using hpause
      have hnormal : ∀ r, normalRound o size r = none := fun r => by
        rw [normalRound, pause_eq_none htime hfits, Option.map_none]
      obtain ⟨k, hk⟩ := Nat.exists_eq_succ_of_ne_zero hpos.ne'
      rw [runNormalRounds, turnsOf_eq_none hnormal hpos, runSomeNormalOperators, hk,
        List.range_succ_eq_map, List.findSome?_cons, normalTurn, hpause]
      rfl

/-- **Which operator is run first.** For any number `n` of normal operators and any
random file, the first threads of the rounds run the operators that the bytes drawn
for them select, if and only if all these bytes are multiples of `n`. In each round
every operator can be had as the first one, by some random file, if and only if there
is one only. -/
theorem first_operator_iff (o : RoundOptions) (n : Nat) :
    (∀ r xs r', runNormalRounds o n r = some (xs, r') →
      ((∀ x ∈ xs, FirstSelected n x) ↔ ∀ x ∈ xs, SelectsZero n x)) ∧
    (pauseFaults o.toDriverOptions = false → ∀ i < turns o.normalCount n,
      ((∀ k < n, ∃ file xs r' x, runNormalRounds o n (.load file) = some (xs, r') ∧
          xs[i]? = some x ∧ x.first = k) ↔ n = 1)) := by
  refine ⟨fun r xs r' hrun => forall₂_congr fun x hx => ?_, fun hpause i hi => ⟨fun h => ?_, ?_⟩⟩
  · exact firstSelected_iff (runNormalRounds_first hrun hx)
  · by_contra hne
    -- with no operator there would be no round
    have hpos : n ≠ 0 := by
      rintro rfl
      exact absurd hi (Nat.not_lt_zero i)
    obtain ⟨file, xs, r', x, hrun, hx, hfirst⟩ := h 1 (by omega)
    rw [runNormalRounds_first hrun (List.mem_of_getElem? hx)] at hfirst
    cases hfirst
  · rintro rfl k hk
    obtain ⟨xs, r', hrun, hlen⟩ := runNormalRounds_length hpause 1 (.load [])
    have hlt : i < xs.length := hlen ▸ hi
    have hget : xs[i]? = some xs[i] := List.getElem?_eq_getElem hlt
    refine ⟨[], xs, r', _, hrun, hget, ?_⟩
    rw [runNormalRounds_first hrun (List.mem_of_getElem? hget)]
    omega

/-- With the default options and three operators, the first round of the file
`0, 1, …` draws the byte `1` and runs operator zero. -/
theorem secondOperator_notRun :
    ∃ xs r', runNormalRounds defaultOptions 3 (.load [0, 1, 200, 0, 2, 200]) = some (xs, r') ∧
      ¬∀ x ∈ xs, FirstSelected 3 x := by
  refine ⟨_, _, rfl, fun h => ?_⟩
  obtain ⟨b, hb, hfirst⟩ := h _ (.head _)
  obtain rfl := Option.some.inj hb
  exact absurd hfirst (by decide)

end DistFuzz.Harness
