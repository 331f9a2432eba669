import DistFuzz.Lib.Hub
import DistFuzz.Fuzzer.Campaign

/-!
# Fuzzers that share their coverage (Synchronize.cpp:153–160, TestRunning.cpp:891–922)

Any number of fuzzers, each with its own virgin map, and one shared map in a
System V segment that `multi_proc_shm_create` fills with `0xff`. A fuzzer
executes a case, which clears the bits of its trace in its own map, or calls
`sync_coverage`, which the file lock makes one step. Any interleaving of these
steps is a run.

- `Peers`, `SyncAction`, `stepPeers`: the system.
- `fuzzUnit_peers`: a call of `FuzzUnit` is one of these steps or two.
- `cleared`, `view`, `view_step`: read through their cleared bits the maps are
  participants that share facts through a hub, so what `DistFuzz.Lib.Hub` says
  holds of them.
-/

namespace DistFuzz.Fuzzer

open DistFuzz.Lib

/-! ## The system -/

/-- The virgin maps of `N` fuzzers and the shared one. -/
structure Peers (N : Nat) where
  locals : Fin N → CovMap
  globalMap : CovMap

/-- Fuzzer `k` executes a case with this trace, or synchronises. -/
inductive SyncAction (N : Nat) where
  | exec (k : Fin N) (trace : CovMap)
  | sync (k : Fin N)

/-- All maps are fresh. -/
def Peers.init (N : Nat) : Peers N := ⟨fun _ => virgin, virgin⟩

/-- One step of one fuzzer. -/
def stepPeers {N : Nat} (p : Peers N) : SyncAction N → Peers N
  | .exec k trace =>
    { p with locals := Function.update p.locals k (hasNewBits trace (p.locals k)).2 }
  | .sync k =>
    let merged := syncCoverage (p.locals k) p.globalMap
    { locals := Function.update p.locals k merged.1, globalMap := merged.2 }

variable {N : Nat}

theorem stepPeers_exec_self (p : Peers N) (k : Fin N) (trace : CovMap) :
    (stepPeers p (.exec k trace)).locals k = clearHits trace (p.locals k) := by
  simp only [stepPeers, Function.update_self, hasNewBits_eq]

/-- A call of `FuzzUnit` that reaches the execution is a step of fuzzer `k`, or
two: it synchronises first when its turn has come. -/
theorem fuzzUnit_peers {cfg : Config} {f : FuzzerState} {u : UnitInput} (h : Executes cfg f u)
    {p : Peers N} {k : Fin N} (hlocal : p.locals k = f.virginMap)
    (hglobal : p.globalMap = fun i => f.syncCov i &&& u.peers.1 i) :
    (run stepPeers p [.exec k u.exec.globalTraceBit]).locals k = (fuzzUnit cfg f u).virginMap ∨
    ((run stepPeers p [.sync k, .exec k u.exec.globalTraceBit]).locals k
        = (fuzzUnit cfg f u).virginMap ∧
      (run stepPeers p [.sync k, .exec k u.exec.globalTraceBit]).globalMap
        = (fuzzUnit cfg f u).syncCov) := by
  have hown : (fuzzUnit cfg f u).virginMap
      = clearHits u.exec.globalTraceBit (beforeExecution cfg f u).virginMap := by
    rw [fuzzUnit_of_executes h, addInterestingSeed_virginMap]
  have hshared : (fuzzUnit cfg f u).syncCov = (beforeExecution cfg f u).syncCov := by
    rw [fuzzUnit_of_executes h]
    rfl
  simp only [run_cons, run_nil, stepPeers_exec_self, hown, hshared]
  -- the maps are exchanged before the execution, and only when the turn has come
  rcases beforeExecution_maps h with ⟨hmap, -⟩ | ⟨hmerged, -⟩
  · exact .inl (by rw [hlocal, hmap])
  · obtain ⟨hmap, hcov⟩ := Prod.mk.inj hmerged
    refine .inr ⟨?_, ?_⟩
    · rw [hmap, ← hglobal, ← hlocal]
      exact congrArg _ (Function.update_self ..)
    · rw [hcov, ← hglobal, ← hlocal]
      rfl

/-! ## Maps as sets of cleared bits -/

/-- A bit of a map: its cell and its place in the cell. -/
abbrev MapBit := Fin mapSize × Fin 8

/-- The bits that are cleared in a map. -/
def cleared (m : CovMap) : Set MapBit := {c | (m c.1).toBitVec.getLsbD c.2 = false}

/-- The bits that a trace hits. -/
def hits (trace : CovMap) : Set MapBit := {c | (trace c.1).toBitVec.getLsbD c.2 = true}

theorem getLsbD_ff (b : Fin 8) : (0xff : UInt8).toBitVec.getLsbD b = true := by
  revert b
  decide

theorem cleared_virgin : cleared virgin = ∅ := by
  refine Set.eq_empty_of_forall_notMem fun c hc => ?_
  have hc' : (0xff : UInt8).toBitVec.getLsbD c.2 = false := hc
  rw [getLsbD_ff] at hc'
  cases hc'

theorem cleared_clearHits (trace m : CovMap) :
    cleared (clearHits trace m) = cleared m ∪ hits trace := by
  ext c
  show (m c.1 &&& ~~~trace c.1).toBitVec.getLsbD c.2 = false
    ↔ (m c.1).toBitVec.getLsbD c.2 = false ∨ (trace c.1).toBitVec.getLsbD c.2 = true
  rw [UInt8.toBitVec_and, UInt8.toBitVec_not, BitVec.getLsbD_and, BitVec.getLsbD_not,
    decide_eq_true c.2.isLt, Bool.true_and, Bool.and_eq_false_iff, Bool.not_eq_false']

theorem cleared_merge (a b : CovMap) :
    cleared (fun i => a i &&& b i) = cleared a ∪ cleared b := by
  ext c
  show (a c.1 &&& b c.1).toBitVec.getLsbD c.2 = false
    ↔ (a c.1).toBitVec.getLsbD c.2 = false ∨ (b c.1).toBitVec.getLsbD c.2 = false
  rw [UInt8.toBitVec_and, BitVec.getLsbD_and, Bool.and_eq_false_iff]

theorem cleared_injective {a b : CovMap} (h : cleared a = cleared b) : a = b := by
  funext i
  refine byte_ext fun j hj => ?_
  have hbit : (a i).toBitVec.getLsbD j = false ↔ (b i).toBitVec.getLsbD j = false :=
    Set.ext_iff.mp h (i, ⟨j, hj⟩)
  rwa [Bool.eq_iff_iff, ← not_iff_not, Bool.not_eq_true, Bool.not_eq_true]

/-- A cell counts as covered iff one of its bits is cleared. -/
theorem ne_ff_iff_cleared {m : CovMap} {i : Fin mapSize} :
    m i ≠ 0xff ↔ ∃ b, (i, b) ∈ cleared m := by
  constructor
  · intro hne
    by_contra hnone
    refine hne (byte_ext fun j hj => ?_)
    have hset : (m i).toBitVec.getLsbD j = true :=
      Bool.not_eq_false _ ▸ fun h => hnone ⟨⟨j, hj⟩, h⟩
    rw [hset, getLsbD_ff ⟨j, hj⟩]
  · rintro ⟨b, hb⟩ heq
    have hb' : (m i).toBitVec.getLsbD b = false := hb
    rw [heq, getLsbD_ff] at hb'
    cases hb'

/-- More cleared bits, more coverage. -/
theorem showCoverage_mono {a b : CovMap} (h : cleared a ⊆ cleared b) :
    showCoverage a ≤ showCoverage b := by
  refine List.countP_mono_left fun i _ hi => ?_
  have hi' : a i ≠ 0xff := by simpa using hi
  obtain ⟨c, hc⟩ := ne_ff_iff_cleared.mp hi'
  have hne : b i ≠ 0xff := ne_ff_iff_cleared.mpr ⟨c, h hc⟩
  simpa using hne

/-! ## The hub underneath -/

/-- What the fuzzers know, as bits. -/
def Peers.view (p : Peers N) : Hub (Fin N) MapBit :=
  ⟨fun k => cleared (p.locals k), cleared p.globalMap⟩

/-- An execution learns the bits of its trace. -/
def SyncAction.view : SyncAction N → HubAction (Fin N) MapBit
  | .exec k trace => .learn k (hits trace)
  | .sync k => .sync k

theorem view_init : (Peers.init N).view = .empty := by
  simp only [Peers.view, Peers.init, cleared_virgin, Hub.empty]

/-- The maps follow the hub protocol. -/
theorem view_step (p : Peers N) (a : SyncAction N) : (stepPeers p a).view = p.view.step a.view := by
  have hupdate : ∀ (k : Fin N) (m : CovMap),
      (fun j => cleared (Function.update p.locals k m j))
        = Function.update (fun j => cleared (p.locals j)) k (cleared m) :=
    fun k m => Function.comp_update cleared p.locals k m
  cases a with
  | exec k trace =>
    simp only [Peers.view, stepPeers, hasNewBits_eq, hupdate, cleared_clearHits, Hub.step,
      SyncAction.view]
  | sync k =>
    simp only [Peers.view, stepPeers, syncCoverage, hupdate, cleared_merge, Hub.step,
      SyncAction.view]

theorem view_run (as : List (SyncAction N)) :
    (run stepPeers (.init N) as).view = run Hub.step .empty (as.map SyncAction.view) := by
  rw [← view_init]
  exact run_sim Peers.view SyncAction.view view_step _ as

/-- What was learned is what some execution hit. -/
theorem mem_learned_view {as : List (SyncAction N)} {c : MapBit} :
    c ∈ Learned (as.map SyncAction.view) ↔ ∃ k trace, .exec k trace ∈ as ∧ c ∈ hits trace := by
  constructor
  · rintro ⟨k, t, ht, hc⟩
    obtain ⟨a, ha, hview⟩ := List.mem_map.mp ht
    cases a with
    | exec k' trace =>
      cases hview
      exact ⟨k, trace, ha, hc⟩
    | sync k' => cases hview
  · rintro ⟨k, trace, hmem, hc⟩
    exact ⟨k, hits trace, List.mem_map.mpr ⟨_, hmem, rfl⟩, hc⟩

/-- What was published is what some fuzzer hit before one of its own
synchronisations. -/
theorem mem_published_view {as : List (SyncAction N)} {c : MapBit} :
    c ∈ Published (as.map SyncAction.view) ↔
      ∃ k trace pre post, as = pre ++ .exec k trace :: post ∧ c ∈ hits trace ∧
        .sync k ∈ post := by
  constructor
  -- the action behind each view is the one of the same kind and fuzzer
  · rintro ⟨k, t, pre', post', heq, hc, hsync⟩
    obtain ⟨pre, rest, rfl, -, hrest⟩ := List.map_eq_append_iff.mp heq
    obtain ⟨a, post, rfl, hview, rfl⟩ := List.map_eq_cons_iff.mp hrest
    obtain ⟨a', ha', hview'⟩ := List.mem_map.mp hsync
    cases a with
    | exec k' trace =>
      cases hview
      cases a' with
      | exec => cases hview'
      | sync k' =>
        cases hview'
        exact ⟨k, trace, pre, post, rfl, hc, ha'⟩
    | sync => cases hview
  · rintro ⟨k, trace, pre, post, rfl, hc, hsync⟩
    refine ⟨k, hits trace, pre.map SyncAction.view, post.map SyncAction.view, ?_, hc, ?_⟩
    · simp [SyncAction.view]
    · exact List.mem_map.mpr ⟨_, hsync, rfl⟩

/-- Over any run every map only loses bits. -/
theorem cleared_subset_run (p : Peers N) (as : List (SyncAction N)) :
    (∀ k, cleared (p.locals k) ⊆ cleared ((run stepPeers p as).locals k)) ∧
      cleared p.globalMap ⊆ cleared (run stepPeers p as).globalMap := by
  have hsub := Hub.run_subset p.view (as.map SyncAction.view)
  rwa [← run_sim Peers.view SyncAction.view view_step] at hsub

/-! ## Shared coverage -/

/-- **Shared coverage.** In every interleaving of executions and
synchronisations, no map has a bit cleared that no execution hit; maps only lose
bits, so nobody's coverage shrinks; the shared map has exactly the bits cleared
that a fuzzer hit before one of its own synchronisations; and once the fuzzers
have synchronised in an order in which each comes at or after some
synchronisation of every other one, all maps are equal, with exactly the bits
cleared that were hit at all. -/
theorem shared_coverage (N : Nat) (as : List (SyncAction N)) :
    (∀ c : MapBit,
      (c ∈ cleared (run stepPeers (.init N) as).globalMap ∨
        ∃ k, c ∈ cleared ((run stepPeers (.init N) as).locals k)) →
      ∃ k trace, .exec k trace ∈ as ∧ c ∈ hits trace) ∧
    (∀ as' : List (SyncAction N),
      cleared (run stepPeers (.init N) as).globalMap
        ⊆ cleared (run stepPeers (.init N) (as ++ as')).globalMap ∧
      ∀ k, cleared ((run stepPeers (.init N) as).locals k)
          ⊆ cleared ((run stepPeers (.init N) (as ++ as')).locals k) ∧
        showCoverage ((run stepPeers (.init N) as).locals k)
          ≤ showCoverage ((run stepPeers (.init N) (as ++ as')).locals k)) ∧
    (∀ c : MapBit, c ∈ cleared (run stepPeers (.init N) as).globalMap ↔
      ∃ k trace pre post, as = pre ++ .exec k trace :: post ∧ c ∈ hits trace ∧
        .sync k ∈ post) ∧
    (∀ ks : List (Fin N),
      (∀ k j, ∃ pre post, ks = pre ++ k :: post ∧ j ∈ k :: post) →
      (∀ k, (run stepPeers (.init N) (as ++ ks.map .sync)).locals k
          = (run stepPeers (.init N) (as ++ ks.map .sync)).globalMap) ∧
      ∀ c : MapBit, c ∈ cleared (run stepPeers (.init N) (as ++ ks.map .sync)).globalMap ↔
        ∃ k trace, .exec k trace ∈ as ∧ c ∈ hits trace) := by
  refine ⟨fun c hc => ?_, fun as' => ?_, fun c => ?_, fun ks hks => ?_⟩
  -- each part is a fact about a hub that collects, read through `view`
  · obtain ⟨hknown, hhub⟩ := Hub.run_subset_learned (as.map SyncAction.view)
    rw [← view_run] at hknown hhub
    rcases hc with hc | ⟨k, hc⟩
    · exact mem_learned_view.mp (hhub hc)
    · exact mem_learned_view.mp (hknown k hc)
  · rw [run_append]
    obtain ⟨hlocals, hglobal⟩ := cleared_subset_run (run stepPeers (.init N) as) as'
    exact ⟨hglobal, fun k => ⟨hlocals k, showCoverage_mono (hlocals k)⟩⟩
  · rw [← mem_published_view, ← Hub.hub_run, ← view_run]
    rfl
  · obtain ⟨hknown, hhub⟩ := Hub.converged (as.map SyncAction.view) hks
    have hsyncs : as.map SyncAction.view ++ ks.map .sync
        = (as ++ ks.map SyncAction.sync).map SyncAction.view := by
      simp [SyncAction.view]
    rw [hsyncs, ← view_run] at hknown hhub
    refine ⟨fun k => cleared_injective ((hknown k).trans hhub.symm), fun c => ?_⟩
    rw [← mem_learned_view, ← hhub]
    rfl

/-- Two fuzzers, the second of which hits a cell; both synchronise, and then both
again. -/
theorem shared_coverage_two :
    (run stepPeers (.init 2)
        ([.exec 1 (oneHit ⟨0, mapSize_pos⟩)] ++ [0, 1, 1, 0].map .sync)).locals 0
      = (run stepPeers (.init 2)
        ([.exec 1 (oneHit ⟨0, mapSize_pos⟩)] ++ [0, 1, 1, 0].map .sync)).globalMap := by
  refine ((shared_coverage 2 [.exec 1 (oneHit ⟨0, mapSize_pos⟩)]).2.2.2 [0, 1, 1, 0] ?_).1 0
  intro k j
  match k with
  | 0 => exact ⟨[], [1, 1, 0], rfl, by revert j; decide⟩
  | 1 => exact ⟨[0], [1, 0], rfl, by revert j; decide⟩

/-- Two synchronisations each do not suffice in every order: the first fuzzer is
done before the second one has published its hit. -/
theorem syncs_twice_unequal :
    (∀ k : Fin 2, [0, 0, 1, 1].count k = 2) ∧
      (run stepPeers (.init 2)
          ([.exec 1 (oneHit ⟨0, mapSize_pos⟩)] ++ [0, 0, 1, 1].map .sync)).locals 0
        ≠ (run stepPeers (.init 2)
          ([.exec 1 (oneHit ⟨0, mapSize_pos⟩)] ++ [0, 0, 1, 1].map .sync)).globalMap := by
  refine ⟨by decide, fun heq => ?_⟩
  have hcell := congrFun heq ⟨0, mapSize_pos⟩
  simp [stepPeers, syncCoverage, hasNewBits_eq, Peers.init, clearHits, oneHit, virgin] at hcell
  exact absurd hcell (by decide)

end DistFuzz.Fuzzer
