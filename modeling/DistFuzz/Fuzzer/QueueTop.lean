import DistFuzz.Fuzzer.Scheduler
import DistFuzz.Lib.Selection

/-!
# Runs of `UpdateQueueTop` (fuzz/fuzzer/old/QueueCulling.cpp)

The queue as its tops see it: seeds are added, measured, marked as fuzzed and culled,
and any seed of the queue is passed to `UpdateQueueTop` with any trace, any number of
times. A trace that a seed already has is kept even if it is passed with another one.

- `TopEvent`, `stepTops`: the runs, with the calls made so far beside the queue.
- `queueTop_bookkeeping`: after every turn of every call, `topCount` counts the indices a
  seed is top of and a seed has a trace exactly if it is top of one; as long as passed
  seeds are not measured again, every index has the passed seed of lowest score among
  those that hit it.
-/

namespace DistFuzz.Fuzzer

open DistFuzz.Lib

/-! ## Runs -/

/-- What happens to the queue. -/
inductive TopEvent where
  /-- a seed without trace is added (`AddToQueue`) -/
  | add (s : Seed)
  /-- the execution time and length of a seed are set -/
  | measure (t : Nat) (execTime fileLen : UInt64)
  /-- a seed was fuzzed -/
  | fuzzed (t : Nat)
  /-- `CullQueue` -/
  | cull
  /-- `UpdateQueueTop` for a seed of the queue -/
  | update (t : Nat) (globalTraceBit : CovMap)

/-- The queue and the calls of `UpdateQueueTop` so far, the oldest first. -/
structure TopRun where
  q : SeedQueue
  calls : List (Nat × CovMap)

/-- The seed with another execution time and length. -/
def Seed.measure (execTime fileLen : UInt64) (s : Seed) : Seed :=
  { s with execTime := execTime, fileLen := fileLen }

/-- One event. -/
def stepTops (r : TopRun) : TopEvent → TopRun
  | .add s => { r with q := { r.q with queue := r.q.queue ++ [s.untopped] } }
  | .measure t execTime fileLen =>
    { r with q := { r.q with queue := r.q.queue.modify t (Seed.measure execTime fileLen) } }
  | .fuzzed t => { r with q := r.q.markFuzzed t }
  | .cull => { r with q := r.q.cullQueue }
  | .update t globalTraceBit =>
    if t < r.q.queue.length then
      { q := r.q.updateQueueTop t globalTraceBit, calls := r.calls ++ [(t, globalTraceBit)] }
    else r

/-- The start: seeds without traces, and no tops. -/
def TopRun.init (seeds : List Seed) : TopRun :=
  { q := .ofList (seeds.map Seed.untopped), calls := [] }

/-- The state after a list of events. -/
def topRun (seeds : List Seed) (events : List TopEvent) : TopRun :=
  run stepTops (TopRun.init seeds) events

/-- The seeds passed so far with a trace that hits index `i`. -/
def hitters (calls : List (Nat × CovMap)) (i : Fin mapSize) : Set Nat :=
  {t | ∃ tr, (t, tr) ∈ calls ∧ tr i ≠ 0}

/-- The event does not change the score of a seed that was passed. -/
def ScoresKept (r : TopRun) : TopEvent → Prop
  | .measure t _ _ => ∀ c ∈ r.calls, c.1 ≠ t
  | _ => True

/-- The two kinds of events: those that have nothing to do with the tops, and the calls. -/
theorem stepTops_cases (r : TopRun) (e : TopEvent) :
    (r.q.Frame (stepTops r e).q ∧ (stepTops r e).calls = r.calls) ∨
    ∃ t tr, t < r.q.queue.length ∧ e = .update t tr ∧
      stepTops r e = { q := r.q.updateQueueTop t tr, calls := r.calls ++ [(t, tr)] } := by
  cases e with
  | add s => exact .inl ⟨r.q.frame_append rfl rfl, rfl⟩
  | measure t execTime fileLen =>
    exact .inl ⟨r.q.frame_modify (f := Seed.measure execTime fileLen) (fun s => ⟨rfl, rfl⟩) t, rfl⟩
  | fuzzed t =>
    exact .inl ⟨r.q.frame_modify (f := fun s => { s with wasFuzzed := true })
      (fun s => ⟨rfl, rfl⟩) t, rfl⟩
  | cull => exact .inl ⟨r.q.frame_cullQueue, rfl⟩
  -- the pointer of a call is one into the queue, others are passed over
  | update t tr =>
    by_cases ht : t < r.q.queue.length
    · exact .inr ⟨t, tr, ht, rfl, if_pos ht⟩
    · rw [stepTops, if_neg ht]
      refine .inl ⟨?_, rfl⟩
      exact { queueTop := rfl, length := le_rfl, seeds := fun _ s hs => .inl ⟨s, hs, rfl, rfl⟩ }

namespace SeedQueue

/-! ## Counts -/

theorem topInv_untopped (traceOf : Nat → CovMap) (seeds : List Seed) :
    TopInv traceOf (ofList (seeds.map Seed.untopped)) := by
  refine topInv_ofList traceOf fun s hs => ?_
  obtain ⟨s₀, -, rfl⟩ := List.mem_map.mp hs
  exact ⟨rfl, rfl⟩

theorem counted_run (seeds : List Seed) (events : List TopEvent) :
    Counted (topRun seeds events).q := by
  refine run_inv' (fun r : TopRun => Counted r.q) (fun r e h => ?_) ?_ events
  · rcases stepTops_cases r e with ⟨hframe, -⟩ | ⟨t, tr, ht, -, heq⟩
    · exact h.frame hframe
    · rw [heq, ← topTurns_all]
      dsimp only
      exact h.topTurns ht tr (Nat.le_refl mapSize)
  · exact (topInv_untopped (fun _ _ => 0) seeds).counted

/-! ## Scores -/

/-- Queues with the same scores. -/
theorem scoreAt_congr {q q' : SeedQueue} (h : q'.queue.map Seed.score = q.queue.map Seed.score)
    (t : Nat) : q'.scoreAt t = q.scoreAt t := by
  rw [scoreAt, scoreAt, ← List.getElem?_map, ← List.getElem?_map, h]

/-- What `UpdateQueueTop` changes does not enter the scores. -/
theorem scoreAt_of_untopped_eq {q q' : SeedQueue}
    (h : q'.queue.map Seed.untopped = q.queue.map Seed.untopped) (t : Nat) :
    q'.scoreAt t = q.scoreAt t := by
  refine scoreAt_congr ?_ t
  have hscores := congrArg (List.map Seed.score) h
  rwa [List.map_map, List.map_map] at hscores

theorem scoreAt_cullQueue (q : SeedQueue) (t : Nat) : q.cullQueue.scoreAt t = q.scoreAt t := by
  refine scoreAt_congr ?_ t
  have hscores := congrArg (List.map Seed.score) q.cullQueue_seeds
  rwa [List.map_map, List.map_map] at hscores

/-- A passed seed keeps its score in every event that is no new measurement of it. -/
theorem scoreAt_stepTops {r : TopRun} {e : TopEvent} (hkept : ScoresKept r e) {c : Nat × CovMap}
    (hc : c ∈ r.calls) (hlt : c.1 < r.q.queue.length) :
    (stepTops r e).q.scoreAt c.1 = r.q.scoreAt c.1 := by
  cases e with
  | add s =>
    show ((r.q.queue ++ [s.untopped])[c.1]?.map Seed.score).getD 0 = _
    rw [List.getElem?_append_left hlt, scoreAt]
  -- a measurement is of another seed, by the condition on the run
  | measure t execTime fileLen =>
    show ((r.q.queue.modify t _)[c.1]?.map Seed.score).getD 0 = _
    rw [List.getElem?_modify]
    simp only [if_neg (Ne.symm (hkept c hc)), id_map', scoreAt]
  | fuzzed t =>
    have hscores := map_modify_of_eq (l := r.q.queue) (t := t) (g := Seed.score)
      (f := fun s : Seed => { s with wasFuzzed := true }) fun _ => rfl
    exact scoreAt_congr hscores c.1
  | cull => exact scoreAt_cullQueue r.q c.1
  | update t tr =>
    rw [stepTops]
    split
    · dsimp only
      exact scoreAt_of_untopped_eq (updateQueueTop_spec r.q t tr).seeds c.1
    · rfl

/-! ## The best of each index -/

theorem hitters_concat_of_miss {calls : List (Nat × CovMap)} {s : Nat} {tr : CovMap}
    {i : Fin mapSize} (hmiss : tr i = 0) : hitters (calls ++ [(s, tr)]) i = hitters calls i := by
  ext t
  constructor
  · rintro ⟨tr', hmem, hhit⟩
    rcases List.mem_append.mp hmem with hmem | hmem
    · exact ⟨tr', hmem, hhit⟩
    · obtain ⟨-, rfl⟩ := Prod.mk.inj (List.mem_singleton.mp hmem)
      exact absurd hmiss hhit
  · rintro ⟨tr', hmem, hhit⟩
    exact ⟨tr', List.mem_append_left _ hmem, hhit⟩

theorem hitters_concat_of_hit {calls : List (Nat × CovMap)} {s : Nat} {tr : CovMap}
    {i : Fin mapSize} (hhit : tr i ≠ 0) :
    hitters (calls ++ [(s, tr)]) i = insert s (hitters calls i) := by
  ext t
  constructor
  · rintro ⟨tr', hmem, hhit'⟩
    rcases List.mem_append.mp hmem with hmem | hmem
    · exact .inr ⟨tr', hmem, hhit'⟩
    · exact .inl (Prod.mk.inj (List.mem_singleton.mp hmem)).1
  · rintro (rfl | ⟨tr', hmem, hhit'⟩)
    · exact ⟨tr, by simp, hhit⟩
    · exact ⟨tr', List.mem_append_left _ hmem, hhit'⟩

/-- The top of index `i` is a passed seed of lowest score among those that hit it. -/
def BestAt (q : SeedQueue) (calls : List (Nat × CovMap)) (i : Fin mapSize) : Prop :=
  IsBest (fun t => (q.scoreAt t).toNat) (hitters calls i) (q.queueTop i)

/-- The tops before turn `k` of a call: the indices passed by know of the call. -/
structure BestInv (q : SeedQueue) (calls : List (Nat × CovMap)) (s : Nat) (tr : CovMap) (k : Nat)
    (q' : SeedQueue) : Prop where
  scores : ∀ t, q'.scoreAt t = q.scoreAt t
  before : ∀ i : Fin mapSize, i.val < k → BestAt q' (calls ++ [(s, tr)]) i
  after : ∀ i : Fin mapSize, k ≤ i.val → BestAt q' calls i

/-- What a turn does to the index it is about. -/
theorem bestAt_topStep {q : SeedQueue} {calls : List (Nat × CovMap)} {s : Nat} {tr : CovMap}
    {i : Fin mapSize} (h : BestAt q calls i)
    (hscores : ∀ t, (topStep s (q.scoreAt s) tr q i).scoreAt t = q.scoreAt t) :
    BestAt (topStep s (q.scoreAt s) tr q i) (calls ++ [(s, tr)]) i := by
  rw [BestAt]
  simp only [hscores]
  -- the seed loses against the top of the index, or takes its place
  rcases topStep_cases s (q.scoreAt s) tr q i with ⟨heq, hbeaten⟩ | ⟨hhit, hwins, seeds, -, heq⟩
  · rw [heq]
    by_cases hhit : tr i = 0
    · rw [hitters_concat_of_miss hhit]
      exact h
    · obtain ⟨t, ht, hlt⟩ := hbeaten hhit
      rw [BestAt, ht] at h
      rw [hitters_concat_of_hit hhit, ht]
      exact h.keep (Nat.le_of_lt (UInt64.lt_iff_toNat_lt.mp hlt))
  · rw [hitters_concat_of_hit hhit, heq]
    simp only [Function.update_self]
    cases hi : q.queueTop i with
    | none =>
      rw [BestAt, hi] at h
      exact h.first
    | some t =>
      rw [BestAt, hi] at h
      exact h.replace (UInt64.le_iff_toNat_le.mp (hwins t hi))

/-- The other indices keep their tops. -/
theorem bestAt_topStep_of_ne {q : SeedQueue} {calls : List (Nat × CovMap)} {s : Nat}
    {tr : CovMap} {i k : Fin mapSize} (hk : k ≠ i) (h : BestAt q calls k)
    (hscores : ∀ t, (topStep s (q.scoreAt s) tr q i).scoreAt t = q.scoreAt t) :
    BestAt (topStep s (q.scoreAt s) tr q i) calls k := by
  have hsame : (topStep s (q.scoreAt s) tr q i).queueTop k = q.queueTop k := by
    rcases topStep_cases s (q.scoreAt s) tr q i with ⟨heq, -⟩ | ⟨-, -, seeds, -, heq⟩
    · rw [heq]
    · rw [heq]
      exact Function.update_of_ne hk ..
  rw [BestAt, hsame]
  simp only [hscores]
  exact h

theorem bestInv_step {q q' : SeedQueue} {calls : List (Nat × CovMap)} {s : Nat} {tr : CovMap}
    (i : Fin mapSize) (h : BestInv q calls s tr i.val q') :
    BestInv q calls s tr (i.val + 1) (topStep s (q.scoreAt s) tr q' i) := by
  have hscores : ∀ t, (topStep s (q'.scoreAt s) tr q' i).scoreAt t = q'.scoreAt t := by
    refine scoreAt_of_untopped_eq ?_
    rcases topStep_cases s (q'.scoreAt s) tr q' i with ⟨heq, -⟩ | ⟨-, -, seeds, hseeds, heq⟩
    · rw [heq]
    · rw [heq]
      exact hseeds
  rw [← h.scores s]
  refine { scores := fun t => (hscores t).trans (h.scores t), before := fun k hk => ?_,
           after := fun k hk => ?_ }
  -- the turns go over the map in order, and each is about its own index only
  · by_cases hki : k = i
    · subst hki
      exact bestAt_topStep (h.after k le_rfl) hscores
    · have hne := Fin.val_ne_of_ne hki
      exact bestAt_topStep_of_ne hki (h.before k (by omega)) hscores
  · have hki : k ≠ i := by
      rintro rfl
      omega
    exact bestAt_topStep_of_ne hki (h.after k (by omega)) hscores

theorem bestInv_topTurns {q : SeedQueue} {calls : List (Nat × CovMap)}
    (h : ∀ i, BestAt q calls i) (s : Nat) (tr : CovMap) {k : Nat} (hk : k ≤ mapSize) :
    BestInv q calls s tr k (q.topTurns s tr k) := by
  refine foldl_finRange_take_inv hk (BestInv q calls s tr) ?_ fun i q' h' => bestInv_step i h'
  exact { scores := fun _ => rfl, before := fun i hi => (nomatch hi), after := fun i _ => h i }

/-- Every index has its best seed, and the seeds passed are in the queue. -/
structure BestTops (r : TopRun) : Prop where
  passed : ∀ c ∈ r.calls, c.1 < r.q.queue.length
  best : ∀ i, BestAt r.q r.calls i

theorem bestTops_step {r : TopRun} (h : BestTops r) {e : TopEvent} (hkept : ScoresKept r e) :
    BestTops (stepTops r e) := by
  -- only a call changes the tops; the other events keep the scores they go by
  rcases stepTops_cases r e with ⟨hframe, hcalls⟩ | ⟨t, tr, ht, -, heq⟩
  · refine { passed := fun c hc => ?_, best := fun i => ?_ }
    · rw [hcalls] at hc
      exact (h.passed c hc).trans_le hframe.length
    · rw [BestAt, hcalls, hframe.queueTop]
      refine (h.best i).congr fun t ⟨tr, hmem, _⟩ => ?_
      rw [scoreAt_stepTops hkept hmem (h.passed _ hmem)]
  · rw [heq, ← topTurns_all]
    have hlen := congrArg List.length (topTurns_spec r.q t tr (Nat.le_refl mapSize)).seeds
    simp only [List.length_map] at hlen
    refine { passed := fun c hc => ?_, best := fun i => ?_ }
    · rw [hlen]
      rcases List.mem_append.mp hc with hc | hc
      · exact h.passed c hc
      · rw [List.mem_singleton.mp hc]
        exact ht
    · dsimp only
      exact (bestInv_topTurns h.best t tr (Nat.le_refl mapSize)).before i i.isLt

theorem bestTops_run (seeds : List Seed) {events : List TopEvent}
    (hkept : Steps stepTops ScoresKept (TopRun.init seeds) events) :
    BestTops (topRun seeds events) := by
  refine run_inv BestTops (fun r e h hok => bestTops_step h hok) ?_ hkept
  refine { passed := fun c hc => (nomatch hc), best := fun i => ?_ }
  have hnone : hitters [] i = ∅ := by
    ext t
    simp [hitters]
  rw [BestAt, TopRun.init, hnone]
  exact isBest_empty

/-- After every run, and after every turn of any call that follows it, `topCount` counts
the indices a seed is top of, a seed has a trace exactly if that is not zero, and the
count of a seed that is top of an index can be decremented. If no passed seed was
measured again, every index has the passed seed of lowest score among those that hit
it; the indices a call has gone over take the call into account. -/
theorem queueTop_bookkeeping (seeds : List Seed) (events : List TopEvent) :
    (Counted (topRun seeds events).q ∧
      ∀ s tr k, s < (topRun seeds events).q.queue.length → k ≤ mapSize →
        Counted ((topRun seeds events).q.topTurns s tr k) ∧
        ∀ i t x, ((topRun seeds events).q.topTurns s tr k).queueTop i = some t →
          ((topRun seeds events).q.topTurns s tr k).queue[t]? = some x → 1 ≤ x.topCount) ∧
    (Steps stepTops ScoresKept (TopRun.init seeds) events →
      (∀ i, BestAt (topRun seeds events).q (topRun seeds events).calls i) ∧
      ∀ s tr k, k ≤ mapSize →
        BestInv (topRun seeds events).q (topRun seeds events).calls s tr k
          ((topRun seeds events).q.topTurns s tr k)) := by
  have hcounted := counted_run seeds events
  refine ⟨⟨hcounted, fun s tr k hs hk => ?_⟩, fun hkept => ?_⟩
  · have hturn := hcounted.topTurns hs tr hk
    exact ⟨hturn, fun i t x hi hx => hturn.one_le_topCount hi hx⟩
  · have hbest := bestTops_run seeds hkept
    exact ⟨hbest.best, fun s tr k hk => bestInv_topTurns hbest.best s tr hk⟩

end SeedQueue

end DistFuzz.Fuzzer
