import DistFuzz.Fuzzer.Campaign

/-!
# The main loop (Main.cpp:492–532, `FuzzMain` in FuzzOne.cpp:1246–1528)

After the dry run the fuzzer walks over the queue for ever: it culls the queue,
calls `FuzzMain` on the current seed, which skips it with a probability that
depends on `pendFavor` and the marks of the seed or else executes any number of
mutated cases, and steps to the next seed.

`CullQueue` does its work only if `UpdateQueueTop` set `scoreChange`, and the only
call of `UpdateQueueTop` that is left is the one of the dry run. So the marks and
`pendFavor` stay as the first cull made them, while `FuzzMain` marks seeds as
fuzzed and `AddInterestingSeed` adds new ones.

- `MainState`, `stepMain`: the loop; what mutated cases do and what `rand`
  returns is input. `stepMain_cases`: what a step does to the seeds.
- `DryInv`, `dryInv_afterDryRun`: the queue after the dry run.
- `PendOk`, `LastPending`, `pendFavor_iff`: the flag is right until the last
  favored seed has been fuzzed, and wrong from then on.
- `run_units`: inside `FuzzMain` the loop is a sequence of `FuzzUnit` calls.
-/

namespace DistFuzz.Fuzzer

open DistFuzz.Lib

/-! ## The loop -/

/-- At the head of the loop, or inside `FuzzMain`. -/
inductive Phase where
  | loopHead
  | fuzzing
deriving DecidableEq, Repr

/-- The state of `main`. -/
structure MainState where
  fuzzer : FuzzerState
  queueCur : Nat
  queueCycle : UInt64
  phase : Phase

/-- What drives the loop: a turn of it up to the decision of `FuzzMain`, with
the value of `rand()`; a mutated case; the return of `FuzzMain`, after an error
or not. -/
inductive MainInput where
  | fuzzMain (rand : Nat)
  | unit (u : UnitInput)
  | ret (error : Bool)

/-- `CullQueue` and the wrap-around of `queueCur`: the state `FuzzMain` is called
in. -/
def atFuzzMain (s : MainState) : MainState :=
  let fuzzer := { s.fuzzer with seeds := s.fuzzer.seeds.cullQueue }
  if s.queueCur = fuzzer.seeds.queue.length then
    { s with fuzzer := fuzzer, queueCycle := s.queueCycle + 1, queueCur := 0 }
  else { s with fuzzer := fuzzer }

/-- `FuzzMain` skips the seed (FuzzOne.cpp:1255–1274). -/
def skips (s : MainState) (cur : Seed) (rand : Nat) : Bool :=
  if s.fuzzer.seeds.pendFavor then
    -- `SKIP_TO_NEW_PROB`
    (cur.wasFuzzed || !cur.favored) && decide (rand % 100 < 99)
  else if !cur.favored then
    -- `SKIP_NFAV_NEW_PROB` and `SKIP_NFAV_OLD_PROB`
    if decide (1 < s.queueCycle) && !cur.wasFuzzed then decide (rand % 100 < 75)
    else decide (rand % 100 < 95)
  else false

/-- `qCur->wasFuzzed = true`. -/
def SeedQueue.markFuzzed (q : SeedQueue) (cur : Nat) : SeedQueue :=
  { q with queue := q.queue.modify cur fun s => { s with wasFuzzed := true } }

/-- A turn of the loop up to the decision. With an empty queue `FuzzMain` is
handed `queue.end()`, and the process is gone. -/
def callFuzzMain (s : MainState) (rand : Nat) : MainState :=
  match s.fuzzer.seeds.queue[s.queueCur]? with
  | none => { s with fuzzer := { s.fuzzer with halted := true } }
  | some cur =>
    if skips s cur rand then { s with queueCur := s.queueCur + 1 }
    else { s with phase := .fuzzing }

/-- The return of `FuzzMain` and `queueCur++`. -/
def returnFuzzMain (s : MainState) (error : Bool) : MainState :=
  { s with
    fuzzer :=
      { s.fuzzer with
        seeds := if error then s.fuzzer.seeds else s.fuzzer.seeds.markFuzzed s.queueCur }
    queueCur := s.queueCur + 1
    phase := .loopHead }

/-- One step of `main`. -/
def stepMain (cfg : Config) (s : MainState) (input : MainInput) : MainState :=
  if s.fuzzer.halted then s
  else match s.phase, input with
    | .loopHead, .fuzzMain rand => callFuzzMain (atFuzzMain s) rand
    | .fuzzing, .unit u => { s with fuzzer := fuzzUnit cfg s.fuzzer u }
    | .fuzzing, .ret error => returnFuzzMain s error
    -- inputs that do not belong to the phase are not taken
    | .loopHead, .unit _ => s
    | .loopHead, .ret _ => s
    | .fuzzing, .fuzzMain _ => s

/-- `main` when it enters the loop. -/
def mainStart (cases : List InitialCase) (attached : CovMap × CovMap) : MainState :=
  let f := afterDryRun cases attached
  { fuzzer := { f with seeds := f.seeds.cullQueue }, queueCur := 0, queueCycle := 0,
    phase := .loopHead }

/-- `FuzzMain` is about to be called. -/
def Calling (s : MainState) : Prop := s.fuzzer.halted = false ∧ s.phase = .loopHead

/-- `FuzzMain` is under way. -/
def Fuzzing (s : MainState) : Prop := s.fuzzer.halted = false ∧ s.phase = .fuzzing

@[simp] theorem atFuzzMain_seeds (s : MainState) :
    (atFuzzMain s).fuzzer.seeds = s.fuzzer.seeds.cullQueue := by
  rw [atFuzzMain]
  dsimp only
  split <;> rfl

/-- What a step does to the seeds: nothing, a cull, what `FuzzUnit` does, or what
the return of `FuzzMain` does. -/
theorem stepMain_cases (cfg : Config) (s : MainState) (input : MainInput) :
    (stepMain cfg s input).fuzzer.seeds = s.fuzzer.seeds ∧
      (∀ u, input = .unit u → ¬Fuzzing s) ∧ (∀ e, input = .ret e → ¬Fuzzing s) ∨
    (∃ rand, input = .fuzzMain rand ∧
      (stepMain cfg s input).fuzzer.seeds = s.fuzzer.seeds.cullQueue) ∨
    (∃ u, input = .unit u ∧ Fuzzing s ∧
      stepMain cfg s input = { s with fuzzer := fuzzUnit cfg s.fuzzer u }) ∨
    (∃ error, input = .ret error ∧ Fuzzing s ∧
      stepMain cfg s input = returnFuzzMain s error) := by
  cases hhalt : s.fuzzer.halted with
  | true =>
    have hstay : stepMain cfg s input = s := if_pos hhalt
    rw [hstay]
    exact .inl ⟨rfl, fun _ _ h => by simp [Fuzzing, hhalt] at h,
      fun _ _ h => by simp [Fuzzing, hhalt] at h⟩
  | false =>
    cases hphase : s.phase with
    | loopHead =>
      have hnot : ¬Fuzzing s := fun h => by simp [Fuzzing, hphase] at h
      cases input with
      | fuzzMain rand =>
        refine .inr (.inl ⟨rand, rfl, ?_⟩)
        simp only [stepMain, hhalt, hphase, Bool.false_eq_true, if_false, callFuzzMain]
        rw [← atFuzzMain_seeds]
        split
        · rfl
        · split <;> rfl
      | unit u => exact .inl ⟨by simp [stepMain, hhalt, hphase], fun _ _ => hnot, fun _ _ => hnot⟩
      | ret e => exact .inl ⟨by simp [stepMain, hhalt, hphase], fun _ _ => hnot, fun _ _ => hnot⟩
    | fuzzing =>
      cases input with
      | fuzzMain rand =>
        exact .inl ⟨by simp [stepMain, hhalt, hphase], fun u h => (nomatch h),
          fun e h => (nomatch h)⟩
      | unit u =>
        exact .inr (.inr (.inl ⟨u, rfl, ⟨hhalt, hphase⟩, by simp [stepMain, hhalt, hphase]⟩))
      | ret e =>
        exact .inr (.inr (.inr ⟨e, rfl, ⟨hhalt, hphase⟩, by simp [stepMain, hhalt, hphase]⟩))

theorem stepMain_unit (cfg : Config) {s : MainState} (hs : Fuzzing s) (u : UnitInput) :
    stepMain cfg s (.unit u) = { s with fuzzer := fuzzUnit cfg s.fuzzer u } := by
  simp [stepMain, hs.1, hs.2]

theorem stepMain_ret (cfg : Config) {s : MainState} (hs : Fuzzing s) (error : Bool) :
    stepMain cfg s (.ret error) = returnFuzzMain s error := by
  simp [stepMain, hs.1, hs.2]

/-- `FuzzUnit` leaves the seeds alone, or appends the seed of an interesting
case. -/
theorem fuzzUnit_seeds (cfg : Config) (f : FuzzerState) (u : UnitInput) :
    ((fuzzUnit cfg f u).seeds = f.seeds ∧
      ¬(Executes cfg f u ∧ Interesting cfg (beforeExecution cfg f u) u.exec)) ∨
    (∃ s : Seed, (fuzzUnit cfg f u).seeds = { f.seeds with queue := f.seeds.queue ++ [s] } ∧
      s.favored = false ∧ s.recorded = some u.exec.globalTraceBit ∧
      Executes cfg f u ∧ Interesting cfg (beforeExecution cfg f u) u.exec) := by
  by_cases hex : Executes cfg f u
  · have hseeds := beforeExecution_seeds cfg f u
    rw [fuzzUnit_of_executes hex]
    by_cases hint : Interesting cfg (beforeExecution cfg f u) u.exec
    · rw [addInterestingSeed_of_interesting (f := { beforeExecution cfg f u with
        totalInput := (beforeExecution cfg f u).totalInput + 1 }) hint, addToQueue]
      exact .inr ⟨_, by rw [hseeds], rfl, rfl, hex, hint⟩
    · rw [addInterestingSeed_of_not_interesting (f := { beforeExecution cfg f u with
        totalInput := (beforeExecution cfg f u).totalInput + 1 }) hint]
      exact .inl ⟨hseeds, fun h => hint h.2⟩
  · exact .inl ⟨(fuzzUnit_of_not_executes hex).2, fun h => hex h.1⟩

/-! ## The queue after the dry run -/

/-- The trace of the initial seed at position `t`, if its dry run ended without
fault. -/
def calibratedTrace (cases : List InitialCase) (t : Nat) : Option CovMap :=
  cases[t]?.bind fun c => if c.run.status = .none then some c.run.globalTraceBit else none

/-- The same trace, empty if there is none. -/
def traceOf (cases : List InitialCase) (t : Nat) : CovMap :=
  (calibratedTrace cases t).getD fun _ => 0

/-- The queue after the dry run of the first `j` seeds: their traces are recorded, none of them is
favored, and every index they hit has a top. -/
structure DryInv (cases : List InitialCase) (j : Nat) (q : SeedQueue) : Prop where
  top : q.TopInv (traceOf cases)
  length : q.queue.length = cases.length
  seeds : ∀ t s, q.queue[t]? = some s → s.favored = false ∧ s.wasFuzzed = false ∧
    s.recorded = if t < j then calibratedTrace cases t else none
  tops : ∀ i t, t < j → traceOf cases t i ≠ 0 → (q.queueTop i).isSome
  flagged : ∀ i, (q.queueTop i).isSome → q.scoreChange = true
  pendFavor : q.pendFavor = false

theorem dryInv_init (cases : List InitialCase) :
    DryInv cases 0 (.ofList (readTestcases cases)) := by
  have hnew : ∀ s ∈ readTestcases cases, ∃ c : InitialCase, s = Seed.new c.fileName c.fileLen := by
    intro s hs
    obtain ⟨c, -, rfl⟩ := List.mem_map.mp hs
    exact ⟨c, rfl⟩
  refine { top := SeedQueue.topInv_ofList _ fun s hs => ?_,
           length := List.length_map .., seeds := fun t s hs => ?_,
           tops := fun i t ht => (nomatch ht), flagged := fun i hi => (nomatch hi),
           pendFavor := rfl }
  · obtain ⟨c, rfl⟩ := hnew s hs
    exact ⟨rfl, rfl⟩
  · obtain ⟨c, rfl⟩ := hnew s (List.mem_of_getElem? hs)
    exact ⟨rfl, rfl, rfl⟩

/-- The turn of a seed whose dry run failed: it is not registered, and has no
trace to be registered with. -/
theorem dryInv_skip {cases : List InitialCase} {j : Nat} {q : SeedQueue}
    (hnone : calibratedTrace cases j = none) (h : DryInv cases j q) : DryInv cases (j + 1) q := by
  refine { h with seeds := fun t s hs => ?_, tops := fun i t ht hhit => ?_ }
  · obtain ⟨hfav, hfuzz, hrec⟩ := h.seeds t s hs
    refine ⟨hfav, hfuzz, hrec.trans ?_⟩
    by_cases htj : t = j
    · subst htj
      rw [if_neg (by omega), if_pos (by omega), hnone]
    · exact if_congr (by omega) rfl rfl
  · by_cases htj : t = j
    · rw [htj, traceOf, hnone] at hhit
      exact absurd rfl hhit
    · exact h.tops i t (by omega) hhit

/-- The turn of a seed whose dry run ended without fault: it is measured and
registered with its trace. -/
theorem dryInv_register {cases : List InitialCase} {j : Nat} {c : InitialCase} {q : SeedQueue}
    (hj : j < cases.length) (hsome : calibratedTrace cases j = some c.run.globalTraceBit)
    (h : DryInv cases j q) :
    DryInv cases (j + 1)
      (SeedQueue.updateQueueTop { q with queue := q.queue.modify j (Seed.calibrate c) } j
        c.run.globalTraceBit) := by
  have htrace : traceOf cases j = c.run.globalTraceBit := by
    rw [traceOf, hsome]
    rfl
  -- the queue with the measured seed, before its registration
  have htop := h.top.frame (q.frame_modify (f := Seed.calibrate c) (fun s => ⟨rfl, rfl⟩) j)
  generalize hq : { q with queue := q.queue.modify j (Seed.calibrate c) } = q₁ at htop
  have hlen : q₁.queue.length = cases.length := by
    rw [← hq]
    exact (List.length_modify ..).trans h.length
  have hspec := q₁.updateQueueTop_spec j c.run.globalTraceBit
  have hreg := SeedQueue.topInv_updateQueueTop htop (s := j) (by rwa [hlen])
  rw [htrace] at hreg
  refine { top := hreg, length := ?_, seeds := fun t s hs => ?_,
           tops := fun i t ht hhit => (hspec.tops i).mpr ?_,
           flagged := hspec.flagged (by rw [← hq]; exact h.flagged),
           pendFavor := hspec.pendFavor.trans (by rw [← hq]; exact h.pendFavor) }
  · have hlen' := congrArg List.length hspec.seeds
    simp only [List.length_map] at hlen'
    exact hlen'.trans hlen
  · obtain ⟨s₁, hs₁, heq⟩ := getElem?_of_map_eq hspec.seeds hs
    rw [← hq] at hs₁
    obtain ⟨s₀, hs₀, rfl⟩ := getElem?_modify_eq_some.mp hs₁
    obtain ⟨hfav, hfuzz, hrec⟩ := h.seeds t s₀ hs₀
    obtain ⟨hfav', hfuzz', hrec'⟩ := Seed.fields_of_untopped_eq heq
    by_cases htj : t = j
    · subst htj
      rw [if_neg (by omega)] at hrec
      rw [if_pos rfl] at hfav' hfuzz' hrec'
      refine ⟨hfav'.symm.trans hfav, hfuzz'.symm.trans hfuzz, hrec'.symm.trans ?_⟩
      rw [if_pos (by omega), hsome]
      show s₀.recorded.or (some c.run.globalTraceBit) = _
      rw [hrec]
      rfl
    · rw [if_neg htj] at hfav' hfuzz' hrec'
      refine ⟨hfav'.symm.trans hfav, hfuzz'.symm.trans hfuzz,
        hrec'.symm.trans (hrec.trans ?_)⟩
      exact if_congr (by omega) rfl rfl
  · rw [← hq]
    by_cases htj : t = j
    · subst htj
      rw [htrace] at hhit
      exact .inr ⟨i.isLt, hhit⟩
    · exact .inl (h.tops i t (by omega) hhit)

theorem dryInv_calibrateCase {cases : List InitialCase} {j : Nat} {c : InitialCase}
    {f : FuzzerState} (hc : cases[j]? = some c) (h : DryInv cases j f.seeds) :
    DryInv cases (j + 1) (calibrateCase f j c).seeds := by
  rw [calibrateCase]
  by_cases hstatus : c.run.status ≠ .none
  · rw [if_pos hstatus]
    exact dryInv_skip (by simp [calibratedTrace, hc, hstatus]) h
  · rw [if_neg hstatus]
    have hsome : calibratedTrace cases j = some c.run.globalTraceBit := by
      simp only [calibratedTrace, hc, Option.bind_some]
      exact if_pos (not_not.mp hstatus)
    dsimp only
    exact dryInv_register (List.getElem?_eq_some_iff.mp hc).1 hsome h

theorem dryInv_afterDryRun (cases : List InitialCase) (attached : CovMap × CovMap) :
    DryInv cases cases.length (afterDryRun cases attached).seeds := by
  have hloop := foldl_zipIdx_inv (fun j f => DryInv cases j f.seeds)
    (f := fun f cq => calibrateCase f cq.2 cq.1)
    (s := FuzzerState.init (readTestcases cases) attached) (l := cases) (k := 0)
    (dryInv_init cases) fun j c f hc h => ?_
  · rwa [Nat.zero_add] at hloop
  · rw [Nat.zero_add] at h ⊢
    exact dryInv_calibrateCase hc h

/-! ## `pendFavor` -/

/-- The flag tells whether a favored seed is still to be fuzzed. -/
def PendOk (q : SeedQueue) : Prop :=
  q.pendFavor = true ↔ ∃ s ∈ q.queue, s.favored = true ∧ s.wasFuzzed = false

/-- `FuzzMain` returns from the last favored seed that was still to be fuzzed. -/
structure LastPending (s : MainState) (input : MainInput) : Prop where
  fuzzing : Fuzzing s
  returns : input = .ret false
  current : ∃ cur, s.fuzzer.seeds.queue[s.queueCur]? = some cur ∧
    cur.favored = true ∧ cur.wasFuzzed = false
  others : ∀ k x, k ≠ s.queueCur → s.fuzzer.seeds.queue[k]? = some x →
    x.favored = true → x.wasFuzzed = true

/-- The favored seeds to be fuzzed after one was. -/
theorem exists_pending_markFuzzed (q : SeedQueue) (cur : Nat) :
    (∃ s ∈ (q.markFuzzed cur).queue, s.favored = true ∧ s.wasFuzzed = false) ↔
      ∃ k s, k ≠ cur ∧ q.queue[k]? = some s ∧ s.favored = true ∧ s.wasFuzzed = false := by
  constructor
  · rintro ⟨s, hs, hfav, hfuzz⟩
    rcases mem_modify_iff.mp hs with ⟨b, -, rfl⟩ | ⟨k, hk, hget⟩
    · cases hfuzz
    · exact ⟨k, s, hk, hget, hfav, hfuzz⟩
  · rintro ⟨k, s, hk, hget, hfav, hfuzz⟩
    exact ⟨s, mem_modify_iff.mpr (.inr ⟨k, hk, hget⟩), hfav, hfuzz⟩

/-- Nothing has changed a score since the last cull, and the flag is right. -/
def PendInv (s : MainState) : Prop :=
  s.fuzzer.seeds.scoreChange = false ∧ PendOk s.fuzzer.seeds

theorem pendInv_start (cases : List InitialCase) (attached : CovMap × CovMap) :
    PendInv (mainStart cases attached) := by
  have hdry := dryInv_afterDryRun cases attached
  refine ⟨SeedQueue.cullQueue_scoreChange _, ?_⟩
  show PendOk (afterDryRun cases attached).seeds.cullQueue
  generalize (afterDryRun cases attached).seeds = q at hdry
  cases hchange : q.scoreChange with
  | true => exact SeedQueue.cullQueue_pendFavor hchange
  | false =>
    -- no seed was registered, so none is favored
    rw [SeedQueue.cullQueue_of_unchanged hchange, PendOk, hdry.pendFavor]
    refine ⟨fun h => (nomatch h), ?_⟩
    rintro ⟨s, hs, hfav, -⟩
    obtain ⟨t, ht⟩ := List.mem_iff_getElem?.mp hs
    rw [(hdry.seeds t s ht).1] at hfav
    cases hfav

theorem pendInv_step {cfg : Config} {s : MainState} {input : MainInput} (h : PendInv s)
    (hlast : ¬LastPending s input) : PendInv (stepMain cfg s input) := by
  obtain ⟨hchange, hpend⟩ := h
  rcases stepMain_cases cfg s input with ⟨hsame, -⟩ | ⟨rand, rfl, hcull⟩ |
    ⟨u, rfl, -, hunit⟩ | ⟨error, rfl, hfuzzing, hret⟩
  · rw [PendInv, hsame]
    exact ⟨hchange, hpend⟩
  · rw [PendInv, hcull, SeedQueue.cullQueue_of_unchanged hchange]
    exact ⟨hchange, hpend⟩
  · rw [PendInv, hunit]
    rcases fuzzUnit_seeds cfg s.fuzzer u with ⟨hsame, -⟩ | ⟨x, hnew, hfav, -⟩
    · dsimp only
      rw [hsame]
      exact ⟨hchange, hpend⟩
    · dsimp only
      rw [hnew]
      refine ⟨hchange, ?_⟩
      rw [PendOk] at hpend ⊢
      simpa [hfav, or_and_right, exists_or] using hpend
  · rw [PendInv, hret, returnFuzzMain]
    dsimp only
    cases error with
    | true => exact ⟨hchange, hpend⟩
    | false =>
      refine ⟨hchange, ?_⟩
      show PendOk (s.fuzzer.seeds.markFuzzed s.queueCur)
      rw [PendOk, exists_pending_markFuzzed]
      refine (show _ ↔ _ from hpend).trans ⟨?_, ?_⟩
      · rintro ⟨x, hx, hfav, hfuzz⟩
        obtain ⟨k, hk⟩ := List.mem_iff_getElem?.mp hx
        by_cases hcur : k = s.queueCur
        · -- the current seed itself: another one must be left
          by_contra hnone
          push Not at hnone
          refine hlast ⟨hfuzzing, rfl, ⟨x, hcur ▸ hk, hfav, hfuzz⟩, fun k y hne hy hfav' => ?_⟩
          simpa using hnone k y hne hy hfav'
        · exact ⟨k, x, hcur, hk, hfav, hfuzz⟩
      · rintro ⟨k, x, -, hk, hfav, hfuzz⟩
        exact ⟨x, List.mem_of_getElem? hk, hfav, hfuzz⟩

/-- After the last favored seed was fuzzed the flag is wrong when `FuzzMain` is
called next. -/
theorem not_pendOk_of_lastPending (cfg : Config) {s : MainState} {input : MainInput}
    (h : PendInv s) (hlast : LastPending s input) :
    Calling (stepMain cfg s input) ∧
      ¬PendOk (atFuzzMain (stepMain cfg s input)).fuzzer.seeds := by
  obtain ⟨hchange, hpend⟩ := h
  obtain ⟨hfuzzing, rfl, ⟨cur, hcur, hfav, hfuzz⟩, hothers⟩ := hlast
  rw [stepMain_ret cfg hfuzzing]
  refine ⟨⟨hfuzzing.1, rfl⟩, ?_⟩
  rw [atFuzzMain_seeds]
  show ¬PendOk (s.fuzzer.seeds.markFuzzed s.queueCur).cullQueue
  rw [SeedQueue.cullQueue_of_unchanged (q := s.fuzzer.seeds.markFuzzed s.queueCur) hchange,
    PendOk, exists_pending_markFuzzed]
  intro hpend'
  have hset : s.fuzzer.seeds.pendFavor = true :=
    hpend.mpr ⟨cur, List.mem_of_getElem? hcur, hfav, hfuzz⟩
  obtain ⟨k, x, hne, hk, hfav', hfuzz'⟩ := hpend'.mp hset
  rw [hothers k x hne hk hfav'] at hfuzz'
  cases hfuzz'

/-- **The scheduler flag** is right at every call of `FuzzMain` of a run if and
only if `FuzzMain` never returns from the last favored seed that was still to be
fuzzed. -/
theorem pendFavor_iff (cfg : Config) (cases : List InitialCase) (attached : CovMap × CovMap)
    (inputs : List MainInput) :
    Always (stepMain cfg) (fun s => Calling s → PendOk (atFuzzMain s).fuzzer.seeds)
        (mainStart cases attached) inputs
      ↔ Steps (stepMain cfg) (fun s input => ¬LastPending s input)
          (mainStart cases attached) inputs := by
  refine always_iff_steps PendInv (fun s h _ => ?_) (fun s input h hok => pendInv_step h hok)
    (fun s input h hno hP => ?_) (pendInv_start cases attached)
  · rw [atFuzzMain_seeds, SeedQueue.cullQueue_of_unchanged h.1]
    exact h.2
  · obtain ⟨hcall, hwrong⟩ := not_pendOk_of_lastPending cfg h (not_not.mp hno)
    exact hwrong (hP hcall)

/-! ## A run through one seed -/

theorem fuzzUnit_alive {cfg : Config} (hrole : cfg.syncState ≠ .alone) {f : FuzzerState}
    (hf : f.halted = false) (u : UnitInput) :
    Executes cfg f u ∧ (fuzzUnit cfg f u).halted = false := by
  have hex : Executes cfg f u := by
    refine ⟨hf, ?_⟩
    rw [beforeExecution]
    dsimp only
    split
    · rw [syncMaps, if_neg hrole]
      exact hf
    · exact hf
  refine ⟨hex, ?_⟩
  rw [fuzzUnit_of_executes hex]
  exact hex.2

/-- Inside `FuzzMain` the loop is a sequence of `FuzzUnit` calls. -/
theorem run_units {cfg : Config} (hrole : cfg.syncState ≠ .alone) {s : MainState}
    (hs : Fuzzing s) (us : List UnitInput) :
    run (stepMain cfg) s (us.map .unit) = { s with fuzzer := run (fuzzUnit cfg) s.fuzzer us } ∧
      (run (fuzzUnit cfg) s.fuzzer us).halted = false := by
  induction us generalizing s with
  | nil => exact ⟨rfl, hs.1⟩
  | cons u us ih =>
    rw [List.map_cons, run_cons, stepMain_unit cfg hs]
    exact ih ⟨(fuzzUnit_alive hrole hs.1 u).2, hs.2⟩

/-- A roll of `99` never skips. -/
theorem not_skips_99 (s : MainState) (cur : Seed) : skips s cur 99 = false := by
  simp [skips]

/-- The queue of the loop starts with the initial seeds. -/
theorem mainStart_length (cases : List InitialCase) (attached : CovMap × CovMap) :
    (mainStart cases attached).fuzzer.seeds.queue.length = cases.length := by
  have hcull := congrArg List.length (afterDryRun cases attached).seeds.cullQueue_seeds
  simp only [List.length_map] at hcull
  exact hcull.trans (dryInv_afterDryRun cases attached).length

/-- At the start of the loop no seed has been fuzzed. -/
theorem mainStart_wasFuzzed {cases : List InitialCase} {attached : CovMap × CovMap} {t : Nat}
    {s : Seed} (hs : (mainStart cases attached).fuzzer.seeds.queue[t]? = some s) :
    s.wasFuzzed = false := by
  obtain ⟨s₀, hs₀, heq⟩ := getElem?_of_map_eq (afterDryRun cases attached).seeds.cullQueue_seeds hs
  obtain ⟨hfuzz, -, -⟩ := Seed.fields_of_unfavored_eq heq
  exact hfuzz.symm.trans ((dryInv_afterDryRun cases attached).seeds t s₀ hs₀).2.1

theorem mainStart_calling (cases : List InitialCase) (attached : CovMap × CovMap) :
    Calling (mainStart cases attached) := by
  refine ⟨?_, rfl⟩
  show (afterDryRun cases attached).halted = false
  rw [afterDryRun_frame]
  rfl

theorem mainStart_frame (cases : List InitialCase) (attached : CovMap × CovMap) :
    (mainStart cases attached).fuzzer =
      { FuzzerState.init (readTestcases cases) attached with
        seeds := (mainStart cases attached).fuzzer.seeds } := by
  rw [mainStart]
  dsimp only
  rw [afterDryRun_frame]

/-- A first call of `FuzzMain` that does not skip. -/
theorem first_call (cfg : Config) {cases : List InitialCase} (hcases : cases ≠ [])
    (attached : CovMap × CovMap) :
    stepMain cfg (mainStart cases attached) (.fuzzMain 99)
      = { mainStart cases attached with phase := .fuzzing } := by
  have hlen := mainStart_length cases attached
  have hpos : 0 < cases.length := List.length_pos_iff.mpr hcases
  have hcall := mainStart_calling cases attached
  have hat : atFuzzMain (mainStart cases attached) = mainStart cases attached := by
    rw [atFuzzMain, SeedQueue.cullQueue_of_unchanged (pendInv_start cases attached).1]
    refine if_neg ?_
    show ¬0 = (mainStart cases attached).fuzzer.seeds.queue.length
    omega
  have hget : ∃ cur, (mainStart cases attached).fuzzer.seeds.queue[
      (mainStart cases attached).queueCur]? = some cur :=
    ⟨_, List.getElem?_eq_getElem (show 0 < _ by omega)⟩
  obtain ⟨cur, hcur⟩ := hget
  have hstep : stepMain cfg (mainStart cases attached) (.fuzzMain 99)
      = callFuzzMain (mainStart cases attached) 99 := by
    simp [stepMain, hcall.1, hcall.2, hat]
  rw [hstep, callFuzzMain, hcur]
  dsimp only
  rw [not_skips_99, if_neg Bool.false_ne_true]

/-- A whole pass over the first seed: the call that does not skip, any cases, and
the return. -/
theorem calling_after_pass {cfg : Config} (hrole : cfg.syncState ≠ .alone)
    {cases : List InitialCase} (hcases : cases ≠ []) (attached : CovMap × CovMap)
    (us : List UnitInput) (error : Bool) :
    Calling (run (stepMain cfg) (mainStart cases attached)
      (.fuzzMain 99 :: us.map .unit ++ [.ret error])) := by
  have hunits := run_units hrole (s := { mainStart cases attached with phase := .fuzzing })
    ⟨(mainStart_calling cases attached).1, rfl⟩ us
  rw [run_concat, run_cons, first_call cfg hcases, hunits.1,
    stepMain_ret cfg (s := { mainStart cases attached with
      phase := .fuzzing, fuzzer := run (fuzzUnit cfg) (mainStart cases attached).fuzzer us })
      ⟨hunits.2, rfl⟩]
  exact ⟨hunits.2, rfl⟩

/-- A seed that hits an index in the dry run makes the first cull favor some
seed. -/
theorem exists_favored_start {cases : List InitialCase} {t : Nat} (ht : t < cases.length)
    {i : Fin mapSize} (hi : traceOf cases t i ≠ 0) (attached : CovMap × CovMap) :
    ∃ s ∈ (mainStart cases attached).fuzzer.seeds.queue, s.favored = true := by
  have hdry := dryInv_afterDryRun cases attached
  have htop := hdry.tops i t ht hi
  obtain ⟨s, hs, hfav, -⟩ := SeedQueue.cullQueue_covers hdry.top (hdry.flagged i htop) htop
  exact ⟨s, hs, hfav⟩

/-- A case with empty traces. -/
def quietUnit : UnitInput :=
  ⟨⟨[0], .none, fun _ => 0, fun _ => 0⟩, ⟨[0], .none, fun _ => 0, fun _ => 0⟩, (virgin, virgin)⟩

/-- Cases with empty traces leave the seeds alone. -/
theorem run_quiet_seeds (cfg : Config) (f : FuzzerState) (n : Nat) :
    (run (fuzzUnit cfg) f (List.replicate n quietUnit)).seeds = f.seeds := by
  induction n generalizing f with
  | zero => rfl
  | succ n ih =>
    rw [List.replicate_succ, run_cons, ih]
    rcases fuzzUnit_seeds cfg f quietUnit with ⟨hsame, -⟩ | ⟨x, -, -, -, -, hint⟩
    · exact hsame
    · rw [Interesting] at hint
      split at hint
      · obtain ⟨i, hi, -⟩ := hint
        exact absurd rfl hi
      · obtain ⟨i, hi⟩ := hint
        exact absurd UInt8.zero_and hi

/-- With one initial seed, which hits something, a `FuzzMain` that executes `n`
cases with empty traces ends on the last pending seed. -/
theorem lastPending_of_one_seed {cfg : Config} (hrole : cfg.syncState ≠ .alone)
    {cases : List InitialCase} (hone : cases.length = 1) {i : Fin mapSize}
    (hi : traceOf cases 0 i ≠ 0) (attached : CovMap × CovMap) (n : Nat) :
    ∃ s, run (stepMain cfg) (mainStart cases attached)
        (.fuzzMain 99 :: (List.replicate n quietUnit).map .unit) = s ∧
      PendInv s ∧ LastPending s (.ret false) := by
  have hne : cases ≠ [] := by
    rintro rfl
    cases hone
  have hcall := mainStart_calling cases attached
  obtain ⟨cur, hcur, hfav⟩ := exists_favored_start (by omega) hi attached
  obtain ⟨t, ht⟩ := List.mem_iff_getElem?.mp hcur
  have hlen : (mainStart cases attached).fuzzer.seeds.queue.length = 1 :=
    (mainStart_length cases attached).trans hone
  have hpos : ∀ k x, (mainStart cases attached).fuzzer.seeds.queue[k]? = some x → k = 0 := by
    intro k x hk
    have := (List.getElem?_eq_some_iff.mp hk).1
    omega
  obtain rfl := hpos t cur ht
  have hunits := run_units hrole (s := { mainStart cases attached with phase := .fuzzing })
    ⟨hcall.1, rfl⟩ (List.replicate n quietUnit)
  have hseeds := run_quiet_seeds cfg (mainStart cases attached).fuzzer n
  rw [run_cons, first_call cfg hne, hunits.1]
  refine ⟨_, rfl, ?_, ⟨hunits.2, rfl⟩, rfl, ⟨cur, ?_, hfav, mainStart_wasFuzzed ht⟩, ?_⟩
  · show _ = false ∧ PendOk (run (fuzzUnit cfg) (mainStart cases attached).fuzzer _).seeds
    rw [hseeds]
    exact pendInv_start cases attached
  · show (run (fuzzUnit cfg) (mainStart cases attached).fuzzer _).seeds.queue[0]? = some cur
    rw [hseeds]
    exact ht
  · intro k x hk hx
    refine absurd (hpos k x ?_) hk
    rw [← hseeds]
    exact hx

/-- A case that hits one index of the coverage map. -/
def oneGlobal (i : Fin mapSize) : Execution := ⟨[0], .none, oneHit i, fun _ => 0⟩

/-- An initial seed of one byte that hits one index. -/
def oneGlobalCase (i : Fin mapSize) : InitialCase := ⟨"in/0", 1, oneGlobal i, 1⟩

theorem traceOf_oneGlobalCase (i : Fin mapSize) : traceOf [oneGlobalCase i] 0 = oneHit i := rfl

/-- A campaign with one initial seed of one byte: it is favored, `FuzzMain`
executes the eight cases of the havoc stage on it, and when it is called next
`pendFavor` is wrong. -/
theorem pendFavor_stale :
    ¬Always (stepMain ⟨false, "out/", .master⟩)
      (fun s => Calling s → PendOk (atFuzzMain s).fuzzer.seeds)
      (mainStart [oneGlobalCase ⟨0, mapSize_pos⟩] (virgin, virgin))
      (.fuzzMain 99 :: (List.replicate 8 quietUnit).map .unit ++ [.ret false]) := by
  intro h
  have hend := always_iff.mp h _ [] (List.append_nil _).symm
  have hi : traceOf [oneGlobalCase ⟨0, mapSize_pos⟩] 0 ⟨0, mapSize_pos⟩ ≠ 0 := by
    rw [traceOf_oneGlobalCase, oneHit, if_pos rfl]
    decide
  obtain ⟨s, hrun, hinv, hlast⟩ := lastPending_of_one_seed
    (show (⟨false, "out/", .master⟩ : Config).syncState ≠ .alone by decide)
    (List.length_singleton ..) hi (virgin, virgin) 8
  obtain ⟨hcall, hwrong⟩ := not_pendOk_of_lastPending ⟨false, "out/", .master⟩ hinv hlast
  rw [run_concat, hrun] at hend
  exact hwrong (hend hcall)

end DistFuzz.Fuzzer
