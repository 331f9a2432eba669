import DistFuzz.Fuzzer.Scheduler

/-!
# What the favored seeds cover (TestRunning.cpp:841–857, QueueCulling.cpp)

A case that `AddInterestingSeed` enqueues is never passed to `UpdateQueueTop`
(the call of `CalibrateCase` there is commented out), so no cull ever favors it.
The favored seeds are a choice among the initial ones, made once; they cover the
queue as long as no case is added that hits an index of its own.

- `FavoredCover`: what culling is for. `DryHit`: what the registered initial
  seeds hit.
- `MarksInv`: the favored seeds hit exactly that, in every state of the loop
  (`marksInv_cullQueue`, `marksInv_step`).
- `AddsUncovered`, `favored_cover_iff`: the step that breaks the cover.
-/

namespace DistFuzz.Fuzzer

open DistFuzz.Lib

/-- The recorded trace of the seed hits index `i`. -/
def Seed.RecordedHit (s : Seed) (i : Fin mapSize) : Prop :=
  ∃ tr, s.recorded = some tr ∧ tr i ≠ 0

/-- Every index hit by a seed of the queue is hit by a favored seed. -/
def FavoredCover (q : SeedQueue) : Prop :=
  ∀ s ∈ q.queue, ∀ i, s.RecordedHit i →
    ∃ s' ∈ q.queue, s'.favored = true ∧ s'.RecordedHit i

/-- An initial seed whose dry run ended without fault hits index `i`. -/
def DryHit (cases : List InitialCase) (i : Fin mapSize) : Prop :=
  ∃ c ∈ cases, c.run.status = .none ∧ c.run.globalTraceBit i ≠ 0

/-- Some seed of the queue hits index `i`. -/
def QueueHit (q : SeedQueue) (i : Fin mapSize) : Prop := ∃ s ∈ q.queue, s.RecordedHit i

/-- Every index hit by a seed of the queue was hit in the dry run. -/
def CoveredByDryRun (cases : List InitialCase) (q : SeedQueue) : Prop :=
  ∀ i, QueueHit q i → DryHit cases i

/-- A mutated case is added that hits an index no registered initial seed
hits. -/
def AddsUncovered (cfg : Config) (cases : List InitialCase) (s : MainState) (input : MainInput) :
    Prop :=
  ∃ u, input = .unit u ∧ Fuzzing s ∧ Executes cfg s.fuzzer u ∧
    Interesting cfg (beforeExecution cfg s.fuzzer u) u.exec ∧
    ∃ i, u.exec.globalTraceBit i ≠ 0 ∧ ¬DryHit cases i

theorem dryHit_iff {cases : List InitialCase} {i : Fin mapSize} :
    DryHit cases i ↔ ∃ t tr, calibratedTrace cases t = some tr ∧ tr i ≠ 0 := by
  constructor
  · rintro ⟨c, hc, hstatus, hi⟩
    obtain ⟨t, ht⟩ := List.mem_iff_getElem?.mp hc
    exact ⟨t, c.run.globalTraceBit, by simp [calibratedTrace, ht, hstatus], hi⟩
  · rintro ⟨t, tr, htr, hi⟩
    obtain ⟨c, hc, hif⟩ := Option.bind_eq_some_iff.mp htr
    split at hif
    · next hstatus =>
      obtain rfl := Option.some.inj hif
      exact ⟨c, List.mem_of_getElem? hc, hstatus, hi⟩
    · cases hif

/-- The favored seeds hit exactly what the registered initial seeds hit. No score changes after
the dry run, so no cull ever changes this. -/
structure MarksInv (cases : List InitialCase) (q : SeedQueue) : Prop where
  scoreChange : q.scoreChange = false
  favored : ∀ i, (∃ s ∈ q.queue, s.favored = true ∧ s.RecordedHit i) ↔ DryHit cases i

/-- A cull changes no recorded trace. -/
theorem recorded_cullQueue {q : SeedQueue} {t : Nat} {s : Seed}
    (hs : q.cullQueue.queue[t]? = some s) :
    ∃ s₀, q.queue[t]? = some s₀ ∧ s.trace = s₀.trace ∧ s.recorded = s₀.recorded := by
  obtain ⟨s₀, hs₀, heq⟩ := getElem?_of_map_eq q.cullQueue_seeds hs
  obtain ⟨-, htrace, hrec⟩ := Seed.fields_of_unfavored_eq heq
  exact ⟨s₀, hs₀, htrace.symm, hrec.symm⟩

/-- After the dry run and a cull, a seed hits what the dry run of its case
hit. -/
theorem dryHit_of_recordedHit {cases : List InitialCase} {q : SeedQueue}
    (h : DryInv cases cases.length q) {s : Seed} (hs : s ∈ q.cullQueue.queue) {i : Fin mapSize}
    (hi : s.RecordedHit i) : DryHit cases i := by
  obtain ⟨t, ht⟩ := List.mem_iff_getElem?.mp hs
  obtain ⟨s₀, hs₀, -, hrec⟩ := recorded_cullQueue ht
  obtain ⟨tr, htr, hne⟩ := hi
  have hlt : t < cases.length := h.length ▸ (List.getElem?_eq_some_iff.mp hs₀).1
  rw [hrec, (h.seeds t s₀ hs₀).2.2, if_pos hlt] at htr
  exact dryHit_iff.mpr ⟨t, tr, htr, hne⟩

theorem marksInv_cullQueue {cases : List InitialCase} {q : SeedQueue}
    (h : DryInv cases cases.length q) : MarksInv cases q.cullQueue := by
  refine ⟨q.cullQueue_scoreChange, fun i => ⟨?_, fun hi => ?_⟩⟩
  · rintro ⟨s, hs, -, hi⟩
    exact dryHit_of_recordedHit h hs hi
  · obtain ⟨t, tr, htr, hne⟩ := dryHit_iff.mp hi
    have hhit : traceOf cases t i ≠ 0 := by rwa [traceOf, htr]
    have hlt : t < cases.length := by
      obtain ⟨c, hc, -⟩ := Option.bind_eq_some_iff.mp htr
      exact (List.getElem?_eq_some_iff.mp hc).1
    have htop := h.tops i t hlt hhit
    obtain ⟨s, hs, hfav, tr', htr', hi'⟩ :=
      SeedQueue.cullQueue_covers h.top (h.flagged i htop) htop
    -- the trace that a favored seed holds is the one of its dry run
    obtain ⟨t', ht'⟩ := List.mem_iff_getElem?.mp hs
    obtain ⟨s₀, hs₀, htrace, hrec⟩ := recorded_cullQueue ht'
    have hlt' : t' < cases.length := h.length ▸ (List.getElem?_eq_some_iff.mp hs₀).1
    have hown := h.top.trace t' s₀ hs₀
    rw [← htrace, htr'] at hown
    split at hown
    · cases hown
    · obtain rfl := Option.some.inj hown
      have hne' : traceOf cases t' i ≠ 0 := by simpa [minimizeBit] using hi'
      refine ⟨s, hs, hfav, ?_⟩
      cases hcal : calibratedTrace cases t' with
      | none =>
        rw [traceOf, hcal] at hne'
        exact absurd rfl hne'
      | some tr =>
        rw [traceOf, hcal] at hne'
        refine ⟨tr, ?_, hne'⟩
        rw [hrec, (h.seeds t' s₀ hs₀).2.2, if_pos hlt', hcal]

theorem marksInv_step {cfg : Config} {cases : List InitialCase} {s : MainState}
    {input : MainInput} (h : MarksInv cases s.fuzzer.seeds) :
    MarksInv cases (stepMain cfg s input).fuzzer.seeds := by
  rcases stepMain_cases cfg s input with ⟨hsame, -⟩ | ⟨rand, rfl, hcull⟩ |
    ⟨u, rfl, -, hunit⟩ | ⟨error, rfl, -, hret⟩
  · rwa [hsame]
  · rwa [hcull, SeedQueue.cullQueue_of_unchanged h.scoreChange]
  · rw [hunit]
    rcases fuzzUnit_seeds cfg s.fuzzer u with ⟨hsame, -⟩ | ⟨x, hnew, hfav, -⟩
    · rwa [hsame]
    -- a seed that is found has no mark, so no index gets covered by it
    · rw [hnew]
      refine ⟨h.scoreChange, fun i => ?_⟩
      rw [← h.favored i]
      simp [hfav, or_and_right, exists_or]
  · rw [hret, returnFuzzMain]
    cases error with
    | true => exact h
    | false =>
      refine ⟨h.scoreChange, fun i => ?_⟩
      rw [← h.favored i]
      exact exists_mem_modify fun x => Iff.rfl

theorem favoredCover_iff {cases : List InitialCase} {q : SeedQueue} (h : MarksInv cases q) :
    FavoredCover q.cullQueue ↔ CoveredByDryRun cases q := by
  rw [SeedQueue.cullQueue_of_unchanged h.scoreChange]
  constructor
  · rintro hcover i ⟨s, hs, hi⟩
    exact (h.favored i).mp (hcover s hs i hi)
  · intro hdry s hs i hi
    exact (h.favored i).mpr (hdry i ⟨s, hs, hi⟩)

/-! ## The step that breaks the cover -/

theorem queueHit_cullQueue (q : SeedQueue) (i : Fin mapSize) :
    QueueHit q.cullQueue i ↔ QueueHit q i := by
  constructor
  · rintro ⟨s, hs, tr, htr, hne⟩
    obtain ⟨t, ht⟩ := List.mem_iff_getElem?.mp hs
    obtain ⟨s₀, hs₀, -, hrec⟩ := recorded_cullQueue ht
    exact ⟨s₀, List.mem_of_getElem? hs₀, tr, hrec.symm.trans htr, hne⟩
  · rintro ⟨s, hs, tr, htr, hne⟩
    obtain ⟨t, ht⟩ := List.mem_iff_getElem?.mp hs
    obtain ⟨s', hs', heq⟩ := getElem?_of_map_eq q.cullQueue_seeds.symm ht
    obtain ⟨-, -, hrec⟩ := Seed.fields_of_unfavored_eq heq
    exact ⟨s', List.mem_of_getElem? hs', tr, hrec.trans htr, hne⟩

theorem queueHit_markFuzzed (q : SeedQueue) (cur : Nat) (i : Fin mapSize) :
    QueueHit (q.markFuzzed cur) i ↔ QueueHit q i :=
  exists_mem_modify fun _ => Iff.rfl

theorem queueHit_append (q : SeedQueue) (s : Seed) (i : Fin mapSize) :
    QueueHit { q with queue := q.queue ++ [s] } i ↔ QueueHit q i ∨ s.RecordedHit i := by
  simp [QueueHit, or_and_right, exists_or]

/-- A step leaves the queue covered exactly if it was and the step adds nothing
uncovered. -/
theorem coveredByDryRun_step (cfg : Config) (cases : List InitialCase) (s : MainState)
    (input : MainInput) :
    CoveredByDryRun cases (stepMain cfg s input).fuzzer.seeds
      ↔ CoveredByDryRun cases s.fuzzer.seeds ∧ ¬AddsUncovered cfg cases s input := by
  -- a step that leaves the hits of the queue alone and is no execution
  have hquiet : ∀ q, (∀ i, QueueHit q i ↔ QueueHit s.fuzzer.seeds i) →
      (∀ u, input = .unit u → ¬Fuzzing s) →
      (CoveredByDryRun cases q
        ↔ CoveredByDryRun cases s.fuzzer.seeds ∧ ¬AddsUncovered cfg cases s input) := by
    intro q hq hnounit
    have hno : ¬AddsUncovered cfg cases s input := by
      rintro ⟨u, hu, hf, -⟩
      exact hnounit u hu hf
    rw [and_iff_left hno]
    exact forall_congr' fun i => by rw [hq i]
  rcases stepMain_cases cfg s input with ⟨hsame, hnounit, -⟩ | ⟨rand, rfl, hcull⟩ |
    ⟨u, rfl, hfuzzing, hunit⟩ | ⟨error, rfl, -, hret⟩
  · exact hquiet _ (fun i => by rw [hsame]) hnounit
  · refine hquiet _ (fun i => ?_) fun u hu => (nomatch hu)
    rw [hcull]
    exact queueHit_cullQueue _ i
  · rw [hunit]
    rcases fuzzUnit_seeds cfg s.fuzzer u with ⟨hsame, hnot⟩ | ⟨x, hnew, -, hrec, hex, hint⟩
    · have hno : ¬AddsUncovered cfg cases s (.unit u) := by
        rintro ⟨u', hu, -, hex, hint, -⟩
        cases hu
        exact hnot ⟨hex, hint⟩
      rw [hsame, and_iff_left hno]
    · have hx : ∀ i, x.RecordedHit i ↔ u.exec.globalTraceBit i ≠ 0 := by
        intro i
        simp [Seed.RecordedHit, hrec]
      have hadds : AddsUncovered cfg cases s (.unit u)
          ↔ ∃ i, u.exec.globalTraceBit i ≠ 0 ∧ ¬DryHit cases i := by
        constructor
        · rintro ⟨u', hu, -, -, -, hi⟩
          cases hu
          exact hi
        · exact fun hi => ⟨u, rfl, hfuzzing, hex, hint, hi⟩
      rw [hnew, hadds, CoveredByDryRun]
      simp only [queueHit_append, hx]
      push Not
      exact ⟨fun h => ⟨fun i hi => h i (.inl hi), fun i hi => h i (.inr hi)⟩,
        fun h i hi => hi.elim (h.1 i) (h.2 i)⟩
  · refine hquiet _ (fun i => ?_) fun u hu => (nomatch hu)
    rw [hret, returnFuzzMain]
    cases error with
    | true => exact Iff.rfl
    | false => exact queueHit_markFuzzed _ _ i

/-- The start of the loop: marks and cover are as they should be. -/
theorem marksInv_start (cases : List InitialCase) (attached : CovMap × CovMap) :
    MarksInv cases (mainStart cases attached).fuzzer.seeds ∧
      CoveredByDryRun cases (mainStart cases attached).fuzzer.seeds := by
  have hdry := dryInv_afterDryRun cases attached
  refine ⟨marksInv_cullQueue hdry, ?_⟩
  rintro i ⟨s, hs, hi⟩
  exact dryHit_of_recordedHit hdry hs hi

theorem marksInv_run (cfg : Config) (cases : List InitialCase) (attached : CovMap × CovMap)
    (inputs : List MainInput) :
    MarksInv cases (run (stepMain cfg) (mainStart cases attached) inputs).fuzzer.seeds :=
  run_inv' (fun s : MainState => MarksInv cases s.fuzzer.seeds) (fun _ _ h => marksInv_step h)
    (marksInv_start cases attached).1 inputs

theorem coveredByDryRun_run (cfg : Config) (cases : List InitialCase)
    (attached : CovMap × CovMap) (inputs : List MainInput) :
    CoveredByDryRun cases (run (stepMain cfg) (mainStart cases attached) inputs).fuzzer.seeds
      ↔ Steps (stepMain cfg) (fun s input => ¬AddsUncovered cfg cases s input)
          (mainStart cases attached) inputs := by
  have hrun := good_run_iff (s := mainStart cases attached) (fun _ => True)
    (fun s : MainState => CoveredByDryRun cases s.fuzzer.seeds) (fun _ _ _ => trivial)
    (fun s input _ => coveredByDryRun_step cfg cases s input) trivial inputs
  rwa [and_iff_right (marksInv_start cases attached).2] at hrun

/-- **Favored seeds cover the queue** at every cull of the loop, in a run that
ends at one, if and only if the run adds no case that hits an index no initial
seed registered in the dry run hits. -/
theorem favored_cover_iff (cfg : Config) (cases : List InitialCase) (attached : CovMap × CovMap)
    (inputs : List MainInput)
    (hend : Calling (run (stepMain cfg) (mainStart cases attached) inputs)) :
    Always (stepMain cfg) (fun s => Calling s → FavoredCover s.fuzzer.seeds.cullQueue)
        (mainStart cases attached) inputs
      ↔ Steps (stepMain cfg) (fun s input => ¬AddsUncovered cfg cases s input)
          (mainStart cases attached) inputs := by
  rw [always_iff]
  constructor
  · intro h
    have hlast := h inputs [] (List.append_nil inputs).symm hend
    rw [favoredCover_iff (marksInv_run cfg cases attached inputs)] at hlast
    exact (coveredByDryRun_run cfg cases attached inputs).mp hlast
  · rintro h pre post rfl -
    rw [favoredCover_iff (marksInv_run cfg cases attached pre)]
    exact (coveredByDryRun_run cfg cases attached pre).mpr (steps_append.mp h).1

/-- A mutated case that hits one index. -/
def oneGlobalUnit (i : Fin mapSize) : UnitInput := ⟨oneGlobal i, oneGlobal i, (virgin, virgin)⟩

theorem hit_oneGlobalUnit {i k : Fin mapSize} :
    (oneGlobalUnit i).exec.globalTraceBit k ≠ 0 ↔ k = i := by
  simp [oneGlobalUnit, oneGlobal, oneHit]

/-- The first mutated case of a campaign that hits an index is interesting, be it one that
the initial seeds hit. -/
theorem interesting_first (cases : List InitialCase) (i : Fin mapSize) :
    Executes ⟨false, "out/", .master⟩ (mainStart cases (virgin, virgin)).fuzzer
        (oneGlobalUnit i) ∧
      Interesting ⟨false, "out/", .master⟩
        (beforeExecution ⟨false, "out/", .master⟩ (mainStart cases (virgin, virgin)).fuzzer
          (oneGlobalUnit i)) (oneGlobalUnit i).exec := by
  have hcall := mainStart_calling cases (virgin, virgin)
  refine ⟨(fuzzUnit_alive (by decide) hcall.1 _).1, ?_⟩
  rw [mainStart_frame]
  refine ⟨i, ?_⟩
  show (oneGlobalUnit i).exec.globalTraceBit i &&& 0xff ≠ 0
  rw [and_ff]
  exact hit_oneGlobalUnit.mpr rfl

/-- If it hits an index the initial seeds do not hit, the cover breaks. -/
theorem addsUncovered_first {cases : List InitialCase} {i : Fin mapSize} (hi : ¬DryHit cases i) :
    AddsUncovered ⟨false, "out/", .master⟩ cases
      { mainStart cases (virgin, virgin) with phase := .fuzzing } (.unit (oneGlobalUnit i)) := by
  obtain ⟨hex, hint⟩ := interesting_first cases i
  exact ⟨_, rfl, ⟨(mainStart_calling cases (virgin, virgin)).1, rfl⟩, hex, hint, i,
    hit_oneGlobalUnit.mpr rfl, hi⟩

/-- A pass over the first seed whose sixteen cases all hit index `i`. -/
def onePass (i : Fin mapSize) : List MainInput :=
  .fuzzMain 99 :: (List.replicate 16 (oneGlobalUnit i)).map .unit ++ [.ret false]

/-- If the initial seeds hit the index, too, nothing that is added is uncovered. -/
theorem onePass_covered {cases : List InitialCase} {i : Fin mapSize} (hi : DryHit cases i)
    (s : MainState) {input : MainInput} (hmem : input ∈ onePass i) :
    ¬AddsUncovered ⟨false, "out/", .master⟩ cases s input := by
  rintro ⟨u, rfl, -, -, -, k, hk, hdry⟩
  have hu : u = oneGlobalUnit i := by simpa [onePass] using hmem
  rw [hu, hit_oneGlobalUnit] at hk
  rw [hk] at hdry
  exact hdry hi

/-- The first case of the pass is added to the queue. -/
theorem onePass_adds {cases : List InitialCase} (hcases : cases ≠ []) (i : Fin mapSize) :
    (run (stepMain ⟨false, "out/", .master⟩) (mainStart cases (virgin, virgin))
      [.fuzzMain 99, .unit (oneGlobalUnit i)]).fuzzer.seeds.queue.length = cases.length + 1 := by
  have hfuzzing : Fuzzing { mainStart cases (virgin, virgin) with phase := .fuzzing } :=
    ⟨(mainStart_calling cases (virgin, virgin)).1, rfl⟩
  rw [run_cons, first_call _ hcases, run_cons, run_nil, stepMain_unit _ hfuzzing]
  rcases fuzzUnit_seeds ⟨false, "out/", .master⟩ (mainStart cases (virgin, virgin)).fuzzer
    (oneGlobalUnit i) with ⟨-, hno⟩ | ⟨x, hnew, -⟩
  · exact absurd (interesting_first cases i) hno
  · dsimp only
    rw [hnew, List.length_append, List.length_singleton, mainStart_length]

/-- One initial seed hits index `0`, and so do the cases of the pass over it. The first of
them is added, and at the loop head after the pass the favored seeds cover the queue. -/
theorem favored_cover_iff_pass :
    (run (stepMain ⟨false, "out/", .master⟩)
      (mainStart [oneGlobalCase ⟨0, mapSize_pos⟩] (virgin, virgin))
      [.fuzzMain 99, .unit (oneGlobalUnit ⟨0, mapSize_pos⟩)]).fuzzer.seeds.queue.length = 2 ∧
    FavoredCover (run (stepMain ⟨false, "out/", .master⟩)
      (mainStart [oneGlobalCase ⟨0, mapSize_pos⟩] (virgin, virgin))
      (onePass ⟨0, mapSize_pos⟩)).fuzzer.seeds.cullQueue := by
  have hcases := List.cons_ne_nil (oneGlobalCase ⟨0, mapSize_pos⟩) []
  have hdry : DryHit [oneGlobalCase ⟨0, mapSize_pos⟩] ⟨0, mapSize_pos⟩ := by
    simp [DryHit, oneGlobalCase, oneGlobal, oneHit]
  have hend := calling_after_pass
    (show (⟨false, "out/", .master⟩ : Config).syncState ≠ .alone by decide) hcases
    (virgin, virgin) (List.replicate 16 (oneGlobalUnit ⟨0, mapSize_pos⟩)) false
  rw [← onePass] at hend
  have hcover := (favored_cover_iff ⟨false, "out/", .master⟩ [oneGlobalCase ⟨0, mapSize_pos⟩]
    (virgin, virgin) (onePass ⟨0, mapSize_pos⟩) hend).mpr (steps_iff.mpr fun pre u post heq =>
      onePass_covered hdry _ (heq ▸ List.mem_append_right _ List.mem_cons_self))
  exact ⟨onePass_adds hcases _, always_iff.mp hcover _ [] (List.append_nil _).symm hend⟩

/-- One initial seed hits index `0`. The first of the sixteen cases that the
havoc stage then executes hits index `1` and is enqueued, and no favored seed
hits that index. -/
theorem uncovered_index :
    ¬Always (stepMain ⟨false, "out/", .master⟩)
      (fun s => Calling s → FavoredCover s.fuzzer.seeds.cullQueue)
      (mainStart [oneGlobalCase ⟨0, mapSize_pos⟩] (virgin, virgin))
      (onePass ⟨1, one_lt_mapSize⟩) := by
  intro h
  have hend := always_iff.mp h _ [] (List.append_nil _).symm
  have hdry : ¬DryHit [oneGlobalCase ⟨0, mapSize_pos⟩] ⟨1, one_lt_mapSize⟩ := by
    simp [DryHit, oneGlobalCase, oneGlobal, oneHit]
  have hfirst := first_call ⟨false, "out/", .master⟩
    (List.cons_ne_nil (oneGlobalCase ⟨0, mapSize_pos⟩) []) (virgin, virgin)
  have hmarks := marksInv_run ⟨false, "out/", .master⟩ [oneGlobalCase ⟨0, mapSize_pos⟩]
    (virgin, virgin) (onePass ⟨1, one_lt_mapSize⟩)
  rw [favoredCover_iff hmarks, coveredByDryRun_run] at hend
  have hcall := calling_after_pass
    (show (⟨false, "out/", .master⟩ : Config).syncState ≠ .alone by decide)
    (List.cons_ne_nil (oneGlobalCase ⟨0, mapSize_pos⟩) []) (virgin, virgin)
    (List.replicate 16 (oneGlobalUnit ⟨1, one_lt_mapSize⟩)) false
  rw [← onePass] at hcall
  -- the second step of the run is the one that breaks the cover
  have hsteps := steps_iff.mp (hend hcall) [.fuzzMain 99] _ _ rfl
  rw [run_cons, run_nil, hfirst] at hsteps
  exact hsteps (addsUncovered_first hdry)

end DistFuzz.Fuzzer
