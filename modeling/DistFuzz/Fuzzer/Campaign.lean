import DistFuzz.Fuzzer.Interesting

/-!
# A campaign: dry run, then mutated cases (TestRunning.cpp:317–435, 891–968)

`DryRunning` executes every initial seed once through `CalibrateCase`, which
measures it and registers it as a top, but never shows its trace to
`has_new_bits`: the virgin maps are still all ones when fuzzing starts. After
that every mutated case goes through `FuzzUnit`, which now and then merges the
virgin maps with those of the other fuzzers, executes the case and calls
`AddInterestingSeed`.

- `calibrateCase`, `dryRunning`, `dryRunning_frame`.
- `syncCoverage`, `fuzzUnit`, `enqueued_fuzzUnit_iff`.
- `Novel`: a case is enqueued only for a branch that no earlier case of the
  campaign hit, those of the dry run included. `RepeatsDryRun`: the step that
  breaks it. `novelty_iff` relates the two.
-/

namespace DistFuzz.Fuzzer

open DistFuzz.Lib

/-! ## The dry run -/

/-- A file of the input directory, its execution in the dry run and the time
that took, in microseconds. -/
structure InitialCase where
  fileName : String
  fileLen : UInt64
  run : Execution
  elapsed : UInt64

/-- `ReadTestcases`. -/
def readTestcases (cases : List InitialCase) : List Seed :=
  cases.map fun c => Seed.new c.fileName c.fileLen

/-- What `CalibrateCase` notes in the seed after a run without fault. -/
def Seed.calibrate (c : InitialCase) (s : Seed) : Seed :=
  { s with recorded := s.recorded.or (some c.run.globalTraceBit), execTime := c.elapsed }

/-- `CalibrateCase` for the seed at position `q`; `CAL_CYCLES` is `1`. -/
def calibrateCase (f : FuzzerState) (q : Nat) (c : InitialCase) : FuzzerState :=
  -- a seed that crashes or hangs stays in the queue, unmeasured
  if c.run.status ≠ .none then f
  else
    let seeds := { f.seeds with queue := f.seeds.queue.modify q (Seed.calibrate c) }
    { f with seeds := seeds.updateQueueTop q c.run.globalTraceBit }

/-- `DryRunning`. -/
def dryRunning (cases : List InitialCase) (f : FuzzerState) : FuzzerState :=
  cases.zipIdx.foldl (fun f cq => calibrateCase f cq.2 cq.1) f

/-- A fuzzer after its dry run. -/
def afterDryRun (cases : List InitialCase) (attached : CovMap × CovMap) : FuzzerState :=
  dryRunning cases (.init (readTestcases cases) attached)

/-- The dry run changes the seeds and their tops and nothing else. -/
theorem dryRunning_frame (cases : List InitialCase) (f : FuzzerState) :
    dryRunning cases f = { f with seeds := (dryRunning cases f).seeds } := by
  have hfold : ∀ (l : List (InitialCase × Nat)) (g : FuzzerState),
      l.foldl (fun f cq => calibrateCase f cq.2 cq.1) g
        = { g with seeds := (l.foldl (fun f cq => calibrateCase f cq.2 cq.1) g).seeds } := by
    intro l
    induction l with
    | nil => exact fun g => rfl
    | cons cq l ih =>
      intro g
      rw [List.foldl_cons, ih]
      by_cases hstatus : cq.1.run.status ≠ .none
      · rw [calibrateCase, if_pos hstatus]
      · rw [calibrateCase, if_neg hstatus]
  exact hfold _ f

theorem afterDryRun_frame (cases : List InitialCase) (attached : CovMap × CovMap) :
    afterDryRun cases attached =
      { FuzzerState.init (readTestcases cases) attached with
        seeds := (afterDryRun cases attached).seeds } :=
  dryRunning_frame cases _

/-! ## `FuzzUnit` -/

/-- `sync_coverage`: the local and the global map after it. -/
def syncCoverage {n : Nat} (localCoverage globalCoverage : ByteMap n) : ByteMap n × ByteMap n :=
  let merged := fun i => globalCoverage i &&& localCoverage i
  (merged, merged)

/-- An input of `FuzzUnit`: the execution it will see, the second run if it
hangs, and what the other fuzzers cleared in the two shared maps since the last
call. -/
structure UnitInput where
  exec : Execution
  rerun : Execution
  peers : CovMap × CovMap

/-- `sync_cycle`. -/
def syncCycle : SyncState → Nat
  | .master => 5
  | .alone => 10
  | .slave => 10

/-- The two calls of `sync_coverage`. A fuzzer without `-M` and `-S` has no lock
file to open and no shared map to merge with, and ends here. -/
def syncMaps (cfg : Config) (f : FuzzerState) (peers : CovMap × CovMap) : FuzzerState :=
  if cfg.syncState = .alone then { f with halted := true }
  else
    -- the other fuzzers have cleared bits of the shared maps in the meantime
    let cov := syncCoverage f.virginMap fun i => f.syncCov i &&& peers.1 i
    let branch := syncCoverage f.virginMapForBranchTraceBit
      fun i => f.syncBranchCov i &&& peers.2 i
    { f with
      virginMap := cov.1
      syncCov := cov.2
      virginMapForBranchTraceBit := branch.1
      syncBranchCov := branch.2 }

/-- `FuzzUnit` up to the execution. -/
def beforeExecution (cfg : Config) (f : FuzzerState) (u : UnitInput) : FuzzerState :=
  let f := { f with fuzzTime := (f.fuzzTime + 1) % syncCycle cfg.syncState }
  if f.fuzzTime = 0 then syncMaps cfg f u.peers else f

/-- `FuzzUnit`. -/
def fuzzUnit (cfg : Config) (f : FuzzerState) (u : UnitInput) : FuzzerState :=
  if f.halted then f
  else
    let f := beforeExecution cfg f u
    if f.halted then f
    else (addInterestingSeed cfg { f with totalInput := f.totalInput + 1 } u.exec u.rerun).2

/-- The process is alive and reaches the execution. -/
def Executes (cfg : Config) (f : FuzzerState) (u : UnitInput) : Prop :=
  f.halted = false ∧ (beforeExecution cfg f u).halted = false

theorem fuzzUnit_of_executes {cfg : Config} {f : FuzzerState} {u : UnitInput}
    (h : Executes cfg f u) :
    fuzzUnit cfg f u =
      (addInterestingSeed cfg
        { beforeExecution cfg f u with
          totalInput := (beforeExecution cfg f u).totalInput + 1 } u.exec u.rerun).2 := by
  rw [fuzzUnit, if_neg (by simp [h.1])]
  exact if_neg (by simp [h.2])

theorem beforeExecution_seeds (cfg : Config) (f : FuzzerState) (u : UnitInput) :
    (beforeExecution cfg f u).seeds = f.seeds := by
  rw [beforeExecution]
  dsimp only
  split
  · rw [syncMaps]
    split <;> rfl
  · rfl

/-- A process that does not reach the execution is gone, with its queue as it
was. -/
theorem fuzzUnit_of_not_executes {cfg : Config} {f : FuzzerState} {u : UnitInput}
    (h : ¬Executes cfg f u) :
    (fuzzUnit cfg f u).halted = true ∧ (fuzzUnit cfg f u).seeds = f.seeds := by
  rw [fuzzUnit]
  by_cases hf : f.halted = true
  · rw [if_pos hf]
    exact ⟨hf, rfl⟩
  · have hb : (beforeExecution cfg f u).halted = true := by
      by_contra hb
      exact h ⟨by simpa using hf, by simpa using hb⟩
    rw [if_neg hf]
    dsimp only
    rw [if_pos hb]
    exact ⟨hb, beforeExecution_seeds cfg f u⟩

/-- A state that is alive after a call was reached through an execution. -/
theorem executes_of_alive {cfg : Config} {f : FuzzerState} {u : UnitInput}
    (h : (fuzzUnit cfg f u).halted = false) : Executes cfg f u := by
  by_contra hno
  rw [(fuzzUnit_of_not_executes hno).1] at h
  cases h

/-- `FuzzUnit` enqueues a case if it is interesting to what it knows after the
merge. -/
theorem enqueued_fuzzUnit_iff {cfg : Config} {f : FuzzerState} {u : UnitInput} :
    Enqueued f (fuzzUnit cfg f u)
      ↔ Executes cfg f u ∧ Interesting cfg (beforeExecution cfg f u) u.exec := by
  by_cases hex : Executes cfg f u
  · have hseeds := beforeExecution_seeds cfg f u
    rw [fuzzUnit_of_executes hex, and_iff_right hex]
    have hiff := enqueued_iff cfg
      { beforeExecution cfg f u with
        totalInput := (beforeExecution cfg f u).totalInput + 1 } u.exec u.rerun
    rw [Enqueued] at hiff ⊢
    rw [← hseeds]
    exact hiff
  · simp [Enqueued, (fuzzUnit_of_not_executes hex).2, hex]

/-! ## What the branch map knows -/

/-- The maps before an execution, own and shared: as they were, or merged. -/
theorem beforeExecution_maps {cfg : Config} {f : FuzzerState} {u : UnitInput}
    (h : Executes cfg f u) :
    ((beforeExecution cfg f u).virginMap = f.virginMap ∧
      (beforeExecution cfg f u).syncCov = f.syncCov ∧
      (beforeExecution cfg f u).virginMapForBranchTraceBit = f.virginMapForBranchTraceBit ∧
      (beforeExecution cfg f u).syncBranchCov = f.syncBranchCov) ∨
    (((beforeExecution cfg f u).virginMap, (beforeExecution cfg f u).syncCov)
        = syncCoverage f.virginMap (fun i => f.syncCov i &&& u.peers.1 i) ∧
      ((beforeExecution cfg f u).virginMapForBranchTraceBit,
          (beforeExecution cfg f u).syncBranchCov)
        = syncCoverage f.virginMapForBranchTraceBit
            (fun i => f.syncBranchCov i &&& u.peers.2 i)) := by
  have hb := h.2
  rw [beforeExecution] at hb ⊢
  dsimp only at hb ⊢
  split at hb
  · next hsync =>
    rw [if_pos hsync]
    rw [syncMaps] at hb ⊢
    split at hb
    · cases hb
    · next hrole =>
      rw [if_neg hrole]
      exact .inr ⟨rfl, rfl⟩
  · next hsync =>
    rw [if_neg hsync]
    exact .inl ⟨rfl, rfl, rfl, rfl⟩

/-- The branch maps, own and shared, before an execution. -/
theorem beforeExecution_branch {cfg : Config} {f : FuzzerState} {u : UnitInput}
    (h : Executes cfg f u) (i : Fin mapSize) :
    ((beforeExecution cfg f u).virginMapForBranchTraceBit i = f.virginMapForBranchTraceBit i ∧
      (beforeExecution cfg f u).syncBranchCov i = f.syncBranchCov i) ∨
    ((beforeExecution cfg f u).virginMapForBranchTraceBit i
        = f.syncBranchCov i &&& u.peers.2 i &&& f.virginMapForBranchTraceBit i ∧
      (beforeExecution cfg f u).syncBranchCov i
        = f.syncBranchCov i &&& u.peers.2 i &&& f.virginMapForBranchTraceBit i) := by
  rcases beforeExecution_maps h with ⟨-, -, hown, hshared⟩ | ⟨-, hmerged⟩
  · exact .inl ⟨congrFun hown i, congrFun hshared i⟩
  · obtain ⟨hown, hshared⟩ := Prod.mk.inj hmerged
    exact .inr ⟨congrFun hown i, congrFun hshared i⟩

/-- What is virgin after the merge was virgin before. -/
theorem virgin_of_beforeExecution {cfg : Config} {f : FuzzerState} {u : UnitInput}
    (h : Executes cfg f u) {i : Fin mapSize}
    (hi : (beforeExecution cfg f u).virginMapForBranchTraceBit i = 0xff) :
    f.virginMapForBranchTraceBit i = 0xff := by
  rcases beforeExecution_branch h i with ⟨hown, -⟩ | ⟨hown, -⟩
  · rwa [← hown]
  · rw [hown, and_eq_ff_iff] at hi
    exact hi.2

/-- Merging with maps that are virgin at `i` changes nothing there. -/
theorem beforeExecution_virgin {cfg : Config} {f : FuzzerState} {u : UnitInput}
    (h : Executes cfg f u) {i : Fin mapSize} (hpeers : u.peers.2 i = 0xff)
    (hi : f.virginMapForBranchTraceBit i = 0xff ∧ f.syncBranchCov i = 0xff) :
    (beforeExecution cfg f u).virginMapForBranchTraceBit i = 0xff ∧
      (beforeExecution cfg f u).syncBranchCov i = 0xff := by
  rcases beforeExecution_branch h i with ⟨hown, hshared⟩ | ⟨hown, hshared⟩
  · rw [hown, hshared]
    exact hi
  · rw [hown, hshared, hi.1, hi.2, hpeers]
    exact ⟨rfl, rfl⟩

theorem fuzzUnit_branch {cfg : Config} {f : FuzzerState} {u : UnitInput}
    (h : Executes cfg f u) :
    (fuzzUnit cfg f u).virginMapForBranchTraceBit
        = clearHits u.exec.branchTraceBit (beforeExecution cfg f u).virginMapForBranchTraceBit ∧
      (fuzzUnit cfg f u).syncBranchCov = (beforeExecution cfg f u).syncBranchCov := by
  rw [fuzzUnit_of_executes h, addInterestingSeed_virginMapForBranchTraceBit]
  exact ⟨rfl, rfl⟩

section Runs

variable (cfg : Config) {f₀ : FuzzerState}

/-- A branch that is still virgin was hit by no case of the run. -/
theorem not_hit_of_virgin {us : List UnitInput} {i : Fin mapSize}
    (halive : (run (fuzzUnit cfg) f₀ us).halted = false)
    (hi : (run (fuzzUnit cfg) f₀ us).virginMapForBranchTraceBit i = 0xff) :
    ∀ u ∈ us, u.exec.branchTraceBit i = 0 := by
  induction us using List.reverseRecOn with
  | nil => exact fun u hu => (nomatch hu)
  | append_singleton us u ih =>
    rw [run_concat] at halive hi
    have hex := executes_of_alive halive
    rw [(fuzzUnit_branch hex).1, clearHits_eq_ff_iff] at hi
    intro v hv
    rcases List.mem_append.mp hv with hv | hv
    · exact ih hex.1 (virgin_of_beforeExecution hex hi.1) v hv
    · obtain rfl := List.mem_singleton.mp hv
      exact hi.2

/-- In a run of one fuzzer on its own, a branch that no case hit is still
virgin. -/
theorem virgin_of_not_hit (h₀ : f₀.virginMapForBranchTraceBit = virgin ∧ f₀.syncBranchCov = virgin)
    {us : List UnitInput} (hpeers : ∀ u ∈ us, u.peers = (virgin, virgin)) {i : Fin mapSize}
    (halive : (run (fuzzUnit cfg) f₀ us).halted = false)
    (hhit : ∀ u ∈ us, u.exec.branchTraceBit i = 0) :
    (run (fuzzUnit cfg) f₀ us).virginMapForBranchTraceBit i = 0xff ∧
      (run (fuzzUnit cfg) f₀ us).syncBranchCov i = 0xff := by
  induction us using List.reverseRecOn with
  | nil =>
    rw [run_nil, h₀.1, h₀.2]
    exact ⟨rfl, rfl⟩
  | append_singleton us u ih =>
    rw [run_concat] at halive ⊢
    have hex := executes_of_alive halive
    have hrec := ih (fun v hv => hpeers v (List.mem_append_left _ hv)) hex.1
      fun v hv => hhit v (List.mem_append_left _ hv)
    have hu : u ∈ us ++ [u] := List.mem_append_right _ (List.mem_singleton_self u)
    have hbefore := beforeExecution_virgin hex (by rw [hpeers u hu]; rfl) hrec
    rw [(fuzzUnit_branch hex).1, (fuzzUnit_branch hex).2, clearHits_eq_ff_iff]
    exact ⟨⟨hbefore.1, hhit u hu⟩, hbefore.2⟩

end Runs

/-! ## Novelty -/

/-- Every case that the campaign enqueues hits a branch that no case before it
hit, be it of the dry run or mutated. -/
def Novel (cfg : Config) (cases : List InitialCase) (attached : CovMap × CovMap)
    (us : List UnitInput) : Prop :=
  ∀ pre u post, us = pre ++ u :: post →
    Enqueued (run (fuzzUnit cfg) (afterDryRun cases attached) pre)
      (run (fuzzUnit cfg) (afterDryRun cases attached) (pre ++ [u])) →
    ∃ i, u.exec.branchTraceBit i ≠ 0 ∧ (∀ c ∈ cases, c.run.branchTraceBit i = 0) ∧
      ∀ v ∈ pre, v.exec.branchTraceBit i = 0

/-- The case hits branches that the virgin map still has, but each of them was
hit in the dry run. -/
def RepeatsDryRun (cfg : Config) (cases : List InitialCase) (f : FuzzerState) (u : UnitInput) :
    Prop :=
  Executes cfg f u ∧
  (∃ i, NewByte u.exec.branchTraceBit (beforeExecution cfg f u).virginMapForBranchTraceBit i) ∧
  ∀ i, NewByte u.exec.branchTraceBit (beforeExecution cfg f u).virginMapForBranchTraceBit i →
    ∃ c ∈ cases, c.run.branchTraceBit i ≠ 0

/-- The dry run leaves the virgin map for branches as it was: all ones. -/
theorem afterDryRun_branch (cases : List InitialCase) (attached : CovMap × CovMap) :
    (afterDryRun cases attached).virginMapForBranchTraceBit = virgin ∧
      (afterDryRun cases attached).syncBranchCov = attached.2 := by
  rw [afterDryRun_frame]
  exact ⟨rfl, rfl⟩

/-- **Novelty of enqueued cases.** In branch-coverage mode a campaign in which no
case merely repeats branches of the dry run enqueues only novel cases, whatever
other fuzzers contribute; for a fuzzer on its own the converse holds as well. -/
theorem novelty_iff {cfg : Config} (hcfg : cfg.isBranchCoverage = true)
    (cases : List InitialCase) (attached : CovMap × CovMap) (us : List UnitInput) :
    (Steps (fuzzUnit cfg) (fun f u => ¬RepeatsDryRun cfg cases f u)
        (afterDryRun cases attached) us → Novel cfg cases attached us) ∧
    (attached = (virgin, virgin) → (∀ u ∈ us, u.peers = (virgin, virgin)) →
      (Novel cfg cases attached us ↔
        Steps (fuzzUnit cfg) (fun f u => ¬RepeatsDryRun cfg cases f u)
          (afterDryRun cases attached) us)) := by
  have hint : ∀ f e, Interesting cfg f e
      ↔ ∃ i, NewByte e.branchTraceBit f.virginMapForBranchTraceBit i := by
    intro f e
    rw [Interesting, if_pos hcfg]
  have hsound : Steps (fuzzUnit cfg) (fun f u => ¬RepeatsDryRun cfg cases f u)
      (afterDryRun cases attached) us → Novel cfg cases attached us := by
    intro hsteps pre u post heq henq
    rw [run_concat, enqueued_fuzzUnit_iff, hint] at henq
    obtain ⟨hex, hnew⟩ := henq
    have hno := steps_iff.mp hsteps pre u post heq
    -- some never-hit branch of the case is new to the dry run as well
    have hfresh : ∃ i, NewByte u.exec.branchTraceBit
        (beforeExecution cfg (run (fuzzUnit cfg) (afterDryRun cases attached) pre)
          u).virginMapForBranchTraceBit i ∧
        ∀ c ∈ cases, c.run.branchTraceBit i = 0 := by
      by_contra hall
      push Not at hall
      exact hno ⟨hex, hnew, hall⟩
    obtain ⟨i, hi, hdry⟩ := hfresh
    exact ⟨i, hi.1, hdry,
      not_hit_of_virgin cfg hex.1 (virgin_of_beforeExecution hex hi.2)⟩
  refine ⟨hsound, fun hatt hpeers => ⟨fun hnovel => ?_, hsound⟩⟩
  refine steps_iff.mpr fun pre u post heq hrep => ?_
  obtain ⟨hex, hnew, hall⟩ := hrep
  have hmem : ∀ v ∈ pre ++ [u], v ∈ us := by
    intro v hv
    rw [heq, List.append_cons]
    exact List.mem_append_left _ hv
  obtain ⟨i, hhit, hdry, hpre⟩ := hnovel pre u post heq
    (by rw [run_concat, enqueued_fuzzUnit_iff, hint]; exact ⟨hex, hnew⟩)
  have hvirgin := virgin_of_not_hit cfg
    (by rw [(afterDryRun_branch cases attached).1, (afterDryRun_branch cases attached).2, hatt]
        exact ⟨rfl, rfl⟩)
    (fun v hv => hpeers v (hmem v (List.mem_append_left _ hv))) hex.1 hpre
  have hbefore := beforeExecution_virgin hex
    (by rw [hpeers u (hmem u (List.mem_append_right _ (List.mem_singleton_self u)))]; rfl) hvirgin
  obtain ⟨c, hc, hne⟩ := hall i ⟨hhit, hbefore.1⟩
  exact hne (hdry c hc)

/-- An initial seed that hits one branch. -/
def oneBranchCase (i : Fin mapSize) : InitialCase := ⟨"in/0", 1, oneBranch i, 1⟩

/-- A mutated case that hits one branch. -/
def oneBranchUnit (i : Fin mapSize) : UnitInput := ⟨oneBranch i, oneBranch i, (virgin, virgin)⟩

/-- The first mutated case of a campaign is enqueued for its branch, whatever
the dry run executed. -/
theorem enqueued_first (cases : List InitialCase) (i : Fin mapSize) :
    Enqueued (afterDryRun cases (virgin, virgin))
      (fuzzUnit ⟨true, "out/", .master⟩ (afterDryRun cases (virgin, virgin))
        (oneBranchUnit i)) := by
  rw [enqueued_fuzzUnit_iff, afterDryRun_frame]
  refine ⟨⟨rfl, rfl⟩, i, ?_, rfl⟩
  simp [oneBranchUnit, oneBranch, oneHit]

/-- The initial seed hits branch `0`. A mutated case that hits branch `1` is enqueued, and
novel. -/
theorem novelty_iff_otherBranch :
    Enqueued (afterDryRun [oneBranchCase ⟨0, mapSize_pos⟩] (virgin, virgin))
      (fuzzUnit ⟨true, "out/", .master⟩
        (afterDryRun [oneBranchCase ⟨0, mapSize_pos⟩] (virgin, virgin))
        (oneBranchUnit ⟨1, one_lt_mapSize⟩)) ∧
    Novel ⟨true, "out/", .master⟩ [oneBranchCase ⟨0, mapSize_pos⟩] (virgin, virgin)
      [oneBranchUnit ⟨1, one_lt_mapSize⟩] := by
  refine ⟨enqueued_first _ _, ((novelty_iff rfl [oneBranchCase ⟨0, mapSize_pos⟩] (virgin, virgin)
    [oneBranchUnit ⟨1, one_lt_mapSize⟩]).2 rfl ?_).mpr ?_⟩
  · intro u hu
    obtain rfl := List.mem_singleton.mp hu
    rfl
  · refine ⟨fun hrep => ?_, trivial⟩
    obtain ⟨-, ⟨i, hi⟩, hall⟩ := hrep
    obtain ⟨c, hc, hdry⟩ := hall i hi
    obtain rfl := List.mem_singleton.mp hc
    -- the branch would have to be both `0` and `1`
    have hdry' : i = ⟨0, mapSize_pos⟩ := by
      simpa [oneBranchCase, oneBranch, oneHit] using hdry
    have hhit : i = ⟨1, one_lt_mapSize⟩ := by
      simpa [oneBranchUnit, oneBranch, oneHit] using hi.1
    exact absurd (congrArg Fin.val (hdry'.symm.trans hhit)) (by decide)

/-- A mutated case with the branch trace of the only initial seed is enqueued. -/
theorem dryRun_repeated :
    ¬Novel ⟨true, "out/", .master⟩ [oneBranchCase ⟨0, mapSize_pos⟩] (virgin, virgin)
      [oneBranchUnit ⟨0, mapSize_pos⟩] := by
  intro h
  obtain ⟨i, hhit, hdry, -⟩ := h [] _ [] rfl (by
    rw [run_concat, run_nil]
    exact enqueued_first _ _)
  exact hhit (hdry _ (List.mem_singleton_self _))

end DistFuzz.Fuzzer
