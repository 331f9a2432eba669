import DistFuzz.Fuzzer.QueueTop

/-!
# What `CullQueue` chooses (fuzz/fuzzer/old/QueueCulling.cpp)

The loop of `CullQueue` is a greedy choice along the indices: the top of an index is
marked exactly if no top marked before it hits the index.

- `GreedyInv`, `greedyInv_step`: `traceRecord` is what the seeds chosen so far hit, and
  the marks are theirs.
- `topInv_topRun`: as long as no seed is passed with two traces, a seed keeps the trace
  it was passed with.
- `cullQueue_greedy_cover`: both together, for the states of a run.
- `passBoth`: two seeds, of which the one that is the top of an index is left out because
  the other one hits that index, too.

The second loop of the source, over `concurrent_queue_top`, is not compiled in
(`NO_CONCURRENCY_FUZZ`).
-/

namespace DistFuzz.Fuzzer

open DistFuzz.Lib

namespace SeedQueue

/-! ## The loop -/

/-- The seed at position `t` hits index `i`. -/
def HitBy (q : SeedQueue) (t : Nat) (i : Fin mapSize) : Prop :=
  ∃ s, q.queue[t]? = some s ∧ s.Hits i

/-- The indices whose top is marked for their sake. -/
abbrev ChosenAt (q : SeedQueue) (i : Fin mapSize) : Prop := Chosen q.queueTop q.HitBy i

/-- Marks do not matter. -/
theorem hitBy_iff_of_unfavored_eq {q q' : SeedQueue}
    (h : q'.queue.map Seed.unfavored = q.queue.map Seed.unfavored) (t : Nat) (i : Fin mapSize) :
    q'.HitBy t i ↔ q.HitBy t i := by
  have hmp : ∀ {q q' : SeedQueue}, q'.queue.map Seed.unfavored = q.queue.map Seed.unfavored →
      q'.HitBy t i → q.HitBy t i := by
    rintro q q' h ⟨s, hs, tr, htr, hi⟩
    obtain ⟨s', hs', heq⟩ := getElem?_of_map_eq h hs
    obtain ⟨-, htrace, -⟩ := Seed.fields_of_unfavored_eq heq
    exact ⟨s', hs', tr, htrace.trans htr, hi⟩
  exact ⟨hmp h, hmp h.symm⟩

/-- The loop of `CullQueue` before turn `k`: what is on record is what the seeds chosen so far
hit, and those are the favored ones. -/
structure GreedyInv (q : SeedQueue) (k : Nat) (st : SeedQueue × TraceBits) : Prop where
  seeds : st.1.queue.map Seed.unfavored = q.queue.map Seed.unfavored
  queueTop : st.1.queueTop = q.queueTop
  record : ∀ i, st.2 i = true ↔
    ∃ j, j.val < k ∧ q.ChosenAt j ∧ ∃ t, q.queueTop j = some t ∧ q.HitBy t i
  favored : ∀ (t : Nat) (s : Seed), st.1.queue[t]? = some s →
    (s.favored = true ↔ ∃ j, j.val < k ∧ q.ChosenAt j ∧ q.queueTop j = some t)

/-- A turn that chooses nothing. -/
theorem greedyInv_skip {q : SeedQueue} {st : SeedQueue × TraceBits} {i : Fin mapSize}
    (h : GreedyInv q i.val st) (hnot : ¬q.ChosenAt i) : GreedyInv q (i.val + 1) st where
  seeds := h.seeds
  queueTop := h.queueTop
  record k := by
    rw [h.record k]
    refine Iff.trans ?_ exists_chosen_succ.symm
    exact (or_iff_left fun hi => hnot hi.1).symm
  favored t s hs := by
    rw [h.favored t s hs]
    refine Iff.trans ?_ exists_chosen_succ.symm
    exact (or_iff_left fun hi => hnot hi.1).symm

/-- A turn that marks the top of its index. -/
theorem greedyInv_mark {q : SeedQueue} {st : SeedQueue × TraceBits} {i : Fin mapSize} {t : Nat}
    (h : GreedyInv q i.val st) (hi : q.queueTop i = some t) (hchosen : q.ChosenAt i) (p : Bool) :
    GreedyInv q (i.val + 1)
      ({ st.1 with queue := st.1.queue.modify t Seed.favor, pendFavor := p },
        fun k => st.2 k || ((st.1.queue[t]?.bind Seed.trace).any fun tr => tr k)) where
  seeds := (map_modify_of_eq (f := Seed.favor) fun _ => rfl).trans h.seeds
  queueTop := h.queueTop
  record k := by
    -- an index is on record if it was before, or if the new favorite hits it
    refine (record_or_iff st.1.queue st.2 t k).trans (Iff.trans ?_ exists_chosen_succ.symm)
    refine or_congr (h.record k) ((hitBy_iff_of_unfavored_eq h.seeds t k).trans ?_)
    constructor
    · intro hhit
      exact ⟨hchosen, t, hi, hhit⟩
    · rintro ⟨-, t', ht', hhit⟩
      obtain rfl := Option.some.inj (hi.symm.trans ht')
      exact hhit
  favored t' s hs := by
    obtain ⟨s₀, hs₀, rfl⟩ := getElem?_modify_eq_some.mp hs
    refine Iff.trans ?_ exists_chosen_succ.symm
    rw [← h.favored t' s₀ hs₀, hi]
    by_cases ht : t' = t
    · rw [if_pos ht, ht]
      exact iff_of_true rfl (.inr ⟨hchosen, rfl⟩)
    · rw [if_neg ht]
      exact (or_iff_left fun hand => ht (Option.some.inj hand.2).symm).symm

theorem greedyInv_step {q : SeedQueue} {st : SeedQueue × TraceBits} (i : Fin mapSize)
    (h : GreedyInv q i.val st) : GreedyInv q (i.val + 1) (cullStep st i) := by
  have hchosen : q.ChosenAt i ↔ (q.queueTop i).isSome = true ∧ st.2 i = false :=
    chosen_iff_of_record h.record
  rw [← h.queueTop] at hchosen
  rcases cullStep_cases st i with ⟨hsame, hrecorded⟩ | ⟨t, hi, hrec, hmark⟩
  · rw [hsame]
    refine greedyInv_skip h fun hc => ?_
    obtain ⟨hsome, hrec⟩ := hchosen.mp hc
    rw [hrecorded hsome] at hrec
    cases hrec
  · rw [hmark]
    refine greedyInv_mark h (h.queueTop ▸ hi) (hchosen.mpr ⟨?_, hrec⟩) _
    rw [hi]
    rfl

theorem greedyInv_cullLoop (q : SeedQueue) : GreedyInv q mapSize q.cullLoop := by
  refine foldl_finRange_inv (GreedyInv q) ?_ fun i st h => greedyInv_step i h
  refine { seeds := ?_, queueTop := rfl, record := fun i => ?_, favored := fun t s hs => ?_ }
  · simp [cullInit, Seed.unfavored, Function.comp_def]
  · simp [cullInit]
  · have hmem : s ∈ q.queue.map Seed.unfavored := List.mem_of_getElem? hs
    obtain ⟨s₀, -, rfl⟩ := List.mem_map.mp hmem
    simp [Seed.unfavored]

/-- The seeds a cull that is not skipped marks. -/
theorem cullQueue_favored {q : SeedQueue} (hchange : q.scoreChange = true) {t : Nat} {s : Seed}
    (hs : q.cullQueue.queue[t]? = some s) :
    s.favored = true ↔ ∃ i, q.ChosenAt i ∧ q.queueTop i = some t := by
  rw [cullQueue_of_changed hchange] at hs
  rw [(greedyInv_cullLoop q).favored t s hs]
  constructor
  · rintro ⟨j, -, hj⟩
    exact ⟨j, hj⟩
  · rintro ⟨j, hj⟩
    exact ⟨j, j.isLt, hj⟩

/-! ## Runs -/

/-- If every seed was passed with one trace only, it keeps that trace. -/
theorem topInv_topRun {traceOf : Nat → CovMap} (seeds : List Seed) {events : List TopEvent}
    (hcalls : ∀ c ∈ (topRun seeds events).calls, c.2 = traceOf c.1) :
    TopInv traceOf (topRun seeds events).q := by
  induction events using List.reverseRecOn with
  | nil => exact topInv_untopped traceOf seeds
  | append_singleton events e ih =>
    rw [topRun, run_concat, ← topRun] at hcalls ⊢
    rcases stepTops_cases (topRun seeds events) e with ⟨hframe, heq⟩ | ⟨t, tr, ht, -, heq⟩
    · rw [heq] at hcalls
      exact (ih hcalls).frame hframe
    · rw [heq] at hcalls ⊢
      have hprev := ih fun c hc => hcalls c (List.mem_append_left _ hc)
      have htr : tr = traceOf t := hcalls (t, tr) (by simp)
      rw [htr]
      dsimp only
      exact topInv_updateQueueTop hprev ht

/-- Seeds that are passed once are passed with one trace. -/
theorem exists_traceOf {calls : List (Nat × CovMap)} (honce : (calls.map Prod.fst).Nodup) :
    ∃ traceOf : Nat → CovMap, ∀ c ∈ calls, c.2 = traceOf c.1 := by
  classical
  refine ⟨fun t => if h : ∃ tr, (t, tr) ∈ calls then h.choose else fun _ => 0, fun c hc => ?_⟩
  have hex : ∃ tr, (c.1, tr) ∈ calls := ⟨c.2, hc⟩
  dsimp only
  rw [dif_pos hex]
  exact congrArg Prod.snd (List.inj_on_of_nodup_map honce hc hex.choose_spec rfl)

/-- A cull that is not skipped, after a run that passed each seed at most once: the
favored seeds hit every index that has a top, they are the tops of the indices chosen
greedily, and `pendFavor` tells whether one of them was not fuzzed. -/
theorem cullQueue_greedy_cover (seeds : List Seed) (events : List TopEvent)
    (honce : ((topRun seeds events).calls.map Prod.fst).Nodup)
    (hchange : (topRun seeds events).q.scoreChange = true) :
    (∀ i, ((topRun seeds events).q.queueTop i).isSome = true →
      ∃ s ∈ (topRun seeds events).q.cullQueue.queue, s.favored = true ∧ s.Hits i) ∧
    (∀ t s, (topRun seeds events).q.cullQueue.queue[t]? = some s →
      (s.favored = true ↔
        ∃ i, (topRun seeds events).q.ChosenAt i ∧ (topRun seeds events).q.queueTop i = some t)) ∧
    ((topRun seeds events).q.cullQueue.pendFavor = true ↔
      ∃ s ∈ (topRun seeds events).q.cullQueue.queue, s.favored = true ∧ s.wasFuzzed = false) := by
  obtain ⟨traceOf, hcalls⟩ := exists_traceOf honce
  have htop := topInv_topRun seeds hcalls
  refine ⟨fun i hi => cullQueue_covers htop hchange hi, fun t s hs => ?_,
    cullQueue_pendFavor hchange⟩
  exact cullQueue_favored hchange hs

/-! ## Two seeds -/

theorem length_updateQueueTop (q : SeedQueue) (s : Nat) (tr : CovMap) :
    (q.updateQueueTop s tr).queue.length = q.queue.length := by
  have hseeds := congrArg List.length (q.updateQueueTop_spec s tr).seeds
  rwa [List.length_map, List.length_map] at hseeds

section TwoSeeds

variable (s₀ s₁ : Seed) (tr₀ tr₁ : CovMap)

/-- Two seeds, passed one after the other. -/
def passBoth : TopRun := topRun [s₀, s₁] [.update 0 tr₀, .update 1 tr₁]

theorem passBoth_eq : passBoth s₀ s₁ tr₀ tr₁ =
    { q := ((TopRun.init [s₀, s₁]).q.updateQueueTop 0 tr₀).updateQueueTop 1 tr₁
      calls := [(0, tr₀), (1, tr₁)] } := by
  have hlen : (TopRun.init [s₀, s₁]).q.queue.length = 2 := rfl
  have hpos : 0 < (TopRun.init [s₀, s₁]).q.queue.length := by
    rw [hlen]
    exact Nat.two_pos
  have hlt : 1 < ((TopRun.init [s₀, s₁]).q.updateQueueTop 0 tr₀).queue.length := by
    rw [length_updateQueueTop, hlen]
    exact Nat.one_lt_two
  have hfirst : stepTops (TopRun.init [s₀, s₁]) (.update 0 tr₀) =
      { q := (TopRun.init [s₀, s₁]).q.updateQueueTop 0 tr₀, calls := [(0, tr₀)] } := by
    rw [stepTops, if_pos hpos]
    dsimp only [TopRun.init, List.nil_append]
  rw [passBoth, topRun, run_cons, hfirst, run_cons, run_nil, stepTops, if_pos hlt]
  dsimp only [List.cons_append, List.nil_append]

/-- Both are there after a cull. -/
theorem length_passBoth : (passBoth s₀ s₁ tr₀ tr₁).q.cullQueue.queue.length = 2 := by
  have hcull := congrArg List.length (passBoth s₀ s₁ tr₀ tr₁).q.cullQueue_seeds
  rw [List.length_map, List.length_map] at hcull
  rw [hcull, passBoth_eq]
  dsimp only
  rw [length_updateQueueTop, length_updateQueueTop]
  rfl

theorem scoreAt_passBoth (t : Nat) :
    (passBoth s₀ s₁ tr₀ tr₁).q.scoreAt t = ([s₀, s₁][t]?.map Seed.score).getD 0 := by
  have hinit : (TopRun.init [s₀, s₁]).q.scoreAt t = ([s₀, s₁][t]?.map Seed.score).getD 0 := by
    show (([s₀, s₁].map Seed.untopped)[t]?.map Seed.score).getD 0 = _
    rw [List.getElem?_map, Option.map_map]
    rfl
  have hfirst := scoreAt_of_untopped_eq
    ((TopRun.init [s₀, s₁]).q.updateQueueTop_spec 0 tr₀).seeds t
  have hsecond := scoreAt_of_untopped_eq
    (((TopRun.init [s₀, s₁]).q.updateQueueTop 0 tr₀).updateQueueTop_spec 1 tr₁).seeds t
  simp only [passBoth_eq]
  rw [hsecond, hfirst, hinit]

/-- The tops, by the scores of the two. -/
theorem best_passBoth (i : Fin mapSize) :
    BestAt (passBoth s₀ s₁ tr₀ tr₁).q [(0, tr₀), (1, tr₁)] i := by
  have hkept : Steps stepTops ScoresKept (TopRun.init [s₀, s₁])
      [.update 0 tr₀, .update 1 tr₁] := ⟨trivial, trivial, trivial⟩
  have hbest := (bestTops_run [s₀, s₁] hkept).best i
  rw [← passBoth] at hbest
  rwa [show (passBoth s₀ s₁ tr₀ tr₁).calls = [(0, tr₀), (1, tr₁)] by rw [passBoth_eq]] at hbest

variable {s₀ s₁ tr₀ tr₁} {i k : Fin mapSize}

/-- An index that only the first one hits. -/
theorem top_passBoth_first (h₀ : tr₀ i ≠ 0) (h₁ : tr₁ i = 0) :
    (passBoth s₀ s₁ tr₀ tr₁).q.queueTop i = some 0 := by
  obtain ⟨hmem, -, hempty⟩ := best_passBoth s₀ s₁ tr₀ tr₁ i
  cases htop : (passBoth s₀ s₁ tr₀ tr₁).q.queueTop i with
  | none =>
    have hin : (0 : Nat) ∈ hitters [(0, tr₀), (1, tr₁)] i := ⟨tr₀, List.mem_cons_self, h₀⟩
    rw [hempty htop] at hin
    exact hin.elim
  | some t =>
    obtain ⟨tr, htr, hhit⟩ := hmem t htop
    rcases List.mem_pair.mp htr with h | h
    · rw [(Prod.mk.inj h).1]
    · rw [(Prod.mk.inj h).2] at hhit
      exact absurd h₁ hhit

/-- An index that the second one hits, which is the better one. -/
theorem top_passBoth_second (h₁ : tr₁ i ≠ 0) (hbetter : s₁.score < s₀.score) :
    (passBoth s₀ s₁ tr₀ tr₁).q.queueTop i = some 1 := by
  obtain ⟨hmem, hle, hempty⟩ := best_passBoth s₀ s₁ tr₀ tr₁ i
  have hin : (1 : Nat) ∈ hitters [(0, tr₀), (1, tr₁)] i :=
    ⟨tr₁, List.mem_cons_of_mem _ List.mem_cons_self, h₁⟩
  cases htop : (passBoth s₀ s₁ tr₀ tr₁).q.queueTop i with
  | none =>
    rw [hempty htop] at hin
    exact hin.elim
  | some t =>
    obtain ⟨tr, htr, -⟩ := hmem t htop
    rcases List.mem_pair.mp htr with h | h
    · have hscores := hle t htop 1 hin
      rw [(Prod.mk.inj h).1, scoreAt_passBoth, scoreAt_passBoth] at hscores
      exact absurd (UInt64.lt_iff_toNat_lt.mp hbetter) (not_lt.mpr hscores)
    · rw [(Prod.mk.inj h).1]

theorem hit_of_top_passBoth_second (htop : (passBoth s₀ s₁ tr₀ tr₁).q.queueTop i = some 1) :
    tr₁ i ≠ 0 := by
  obtain ⟨tr, htr, hhit⟩ := (best_passBoth s₀ s₁ tr₀ tr₁ i).mem 1 htop
  rcases List.mem_pair.mp htr with h | h
  · exact absurd (Prod.mk.inj h).1 (by decide)
  · rwa [(Prod.mk.inj h).2] at hhit

/-- The first one has its trace as long as it is a top. -/
theorem hitBy_passBoth (htop : (passBoth s₀ s₁ tr₀ tr₁).q.queueTop i = some 0) (hk : tr₀ k ≠ 0) :
    (passBoth s₀ s₁ tr₀ tr₁).q.HitBy 0 k := by
  have hinv : TopInv (fun t => if t = 0 then tr₀ else tr₁) (passBoth s₀ s₁ tr₀ tr₁).q := by
    refine topInv_topRun [s₀, s₁] fun c hc => ?_
    rw [← passBoth, show (passBoth s₀ s₁ tr₀ tr₁).calls = [(0, tr₀), (1, tr₁)] by
      rw [passBoth_eq]] at hc
    rcases List.mem_pair.mp hc with rfl | rfl <;> rfl
  obtain ⟨s, hs⟩ : ∃ s, (passBoth s₀ s₁ tr₀ tr₁).q.queue[0]? = some s :=
    ⟨_, List.getElem?_eq_getElem (hinv.top i 0 htop).1⟩
  refine ⟨s, hs, minimizeBit tr₀, ?_, by rwa [minimizeBit, bne_iff_ne]⟩
  rw [hinv.trace 0 s hs, if_neg (hinv.counted.topCount_ne_zero htop hs)]
  rfl

theorem changed_passBoth (h₀ : tr₀ i ≠ 0) :
    (passBoth s₀ s₁ tr₀ tr₁).q.scoreChange = true := by
  have hspec := (TopRun.init [s₀, s₁]).q.updateQueueTop_spec 0 tr₀
  have hflag := hspec.flagged fun k hk => absurd hk (by simp [TopRun.init, ofList])
  have hspec' := ((TopRun.init [s₀, s₁]).q.updateQueueTop 0 tr₀).updateQueueTop_spec 1 tr₁
  rw [passBoth_eq]
  refine hspec'.flagged hflag i ((hspec'.tops i).mpr (.inl ((hspec.tops i).mpr (.inr ⟨?_, h₀⟩))))
  exact i.isLt

end TwoSeeds

/-- The first index is chosen if it has a top. -/
theorem chosenAt_zero {q : SeedQueue} (htop : (q.queueTop ⟨0, mapSize_pos⟩).isSome = true) :
    q.ChosenAt ⟨0, mapSize_pos⟩ :=
  (chosen_iff _ _ _).mpr ⟨htop, fun _ hj => absurd hj (Nat.not_lt_zero _)⟩

/-- An index that was hit by what was chosen before is not. -/
theorem not_chosenAt {q : SeedQueue} {i j : Fin mapSize} {t : Nat} (hj : j < i)
    (hchosen : q.ChosenAt j) (htop : q.queueTop j = some t) (hhit : q.HitBy t i) :
    ¬q.ChosenAt i :=
  fun hi => ((chosen_iff _ _ _).mp hi).2 j hj hchosen t htop hhit

/-- A slow seed. -/
def slow : Seed := { Seed.new "slow" 4 with execTime := 2 }

/-- A fast one. -/
def fast : Seed := { Seed.new "fast" 2 with execTime := 1 }

/-- The index that both hit. The slow seed hits the one before it, too. -/
def shared : Fin mapSize := ⟨1, one_lt_mapSize⟩

/-- Both are passed. -/
def slowAndFast : TopRun := passBoth slow fast (hitsUpTo shared) (oneHit shared)

theorem zero_lt_shared : (⟨0, mapSize_pos⟩ : Fin mapSize) < shared := Nat.zero_lt_one

theorem slow_hits {k : Fin mapSize} (hk : k ≤ shared) : (hitsUpTo shared : CovMap) k ≠ 0 := by
  rw [hitsUpTo, if_pos hk]
  decide

theorem fast_hits_iff (k : Fin mapSize) : (oneHit shared : CovMap) k ≠ 0 ↔ k = shared := by
  simp [oneHit]

/-- Each of the two is the top of one index. -/
theorem slowAndFast_tops : slowAndFast.q.queueTop ⟨0, mapSize_pos⟩ = some 0 ∧
    slowAndFast.q.queueTop shared = some 1 := by
  rw [slowAndFast]
  refine ⟨top_passBoth_first (slow_hits zero_lt_shared.le) ?_,
    top_passBoth_second ((fast_hits_iff _).mpr rfl) (by decide)⟩
  exact not_not.mp fun h => zero_lt_shared.ne ((fast_hits_iff _).mp h)

/-- The index of the slow one is chosen, and with it the other one is hit already. -/
theorem slowAndFast_chosen :
    slowAndFast.q.ChosenAt ⟨0, mapSize_pos⟩ ∧ ¬slowAndFast.q.ChosenAt shared := by
  have hfirst := slowAndFast_tops.1
  have hchosen := chosenAt_zero (Option.isSome_of_eq_some hfirst)
  have hhit : slowAndFast.q.HitBy 0 shared := by
    rw [slowAndFast] at hfirst ⊢
    exact hitBy_passBoth hfirst (slow_hits le_rfl)
  exact ⟨hchosen, not_chosenAt zero_lt_shared hchosen hfirst hhit⟩

/-- The fast seed is the top of the index that both hit. `CullQueue` chooses the slow one,
at the index before. That leaves nothing to choose, and the fast seed is not marked. -/
theorem slowAndFast_greedy_cover :
    slowAndFast.q.queueTop shared = some 1 ∧
    (∀ i, (slowAndFast.q.queueTop i).isSome = true →
      ∃ s ∈ slowAndFast.q.cullQueue.queue, s.favored = true ∧ s.Hits i) ∧
    (∃ s, slowAndFast.q.cullQueue.queue[0]? = some s ∧ s.favored = true) ∧
    ∃ s, slowAndFast.q.cullQueue.queue[1]? = some s ∧ s.favored = false := by
  have honce : ((topRun [slow, fast]
      [.update 0 (hitsUpTo shared), .update 1 (oneHit shared)]).calls.map Prod.fst).Nodup := by
    rw [← passBoth, passBoth_eq]
    decide
  have hchange : (topRun [slow, fast]
      [.update 0 (hitsUpTo shared), .update 1 (oneHit shared)]).q.scoreChange = true := by
    rw [← passBoth]
    exact changed_passBoth (slow_hits zero_lt_shared.le)
  obtain ⟨hcover, hfavored, -⟩ := cullQueue_greedy_cover [slow, fast]
    [.update 0 (hitsUpTo shared), .update 1 (oneHit shared)] honce hchange
  rw [← passBoth, ← slowAndFast] at hcover hfavored
  have hget : ∀ t < 2, ∃ s, slowAndFast.q.cullQueue.queue[t]? = some s := by
    intro t ht
    rw [slowAndFast]
    exact ⟨_, List.getElem?_eq_getElem (ht.trans_eq (length_passBoth _ _ _ _).symm)⟩
  obtain ⟨s, hs⟩ := hget 0 Nat.two_pos
  obtain ⟨s', hs'⟩ := hget 1 Nat.one_lt_two
  obtain ⟨hfirst, hsecond⟩ := slowAndFast_tops
  obtain ⟨hchosen, hnot⟩ := slowAndFast_chosen
  refine ⟨hsecond, hcover, ⟨s, hs, (hfavored 0 s hs).mpr ⟨_, hchosen, hfirst⟩⟩, s', hs', ?_⟩
  rw [← Bool.not_eq_true, hfavored 1 s' hs']
  -- a chosen index whose top is the fast seed would be the one that both hit
  rintro ⟨i, hi, htop⟩
  rw [slowAndFast] at htop
  rw [(fast_hits_iff i).mp (hit_of_top_passBoth_second htop)] at hi
  exact hnot hi

end SeedQueue

end DistFuzz.Fuzzer
