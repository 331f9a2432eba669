import DistFuzz.Bpf.Injector
import DistFuzz.Lib.Runs

/-!
# The coverage of several BPF injectors

Under `start_with_ebpf` every node runs in an injector process of its own
(`main`, dst_fuzz_fault.c), whose probes count into a private map. `main` copies
that map to the shared one when it leaves its loop: when the node exits or a
`SIGINT` comes. Any other signal ends it on the spot.

- `Tracer`, `stepTracer`: one injector process.
- `System`, `step`: the processes and the shared map, in any interleaving.
- `Merged`: the shared map is set wherever a process's map is.
- `merged_iff`: it is so exactly if the map of the last process to publish is set
  there, since publishing overwrites.
- `shared_of_terminated`: nodes stopped the way the node manager stops them publish
  nothing.
-/

namespace DistFuzz.Bpf.Merge

open DistFuzz.Lib DistFuzz.Bpf

/-! ### One injector process -/

/-- A probe that a task hits. -/
inductive Probe where
  | sysOpen (fname : Memory)
  | sysOpenExit (ret : Int64)
  | sysSocketExit (ret : Int64)
  | sysTransfer (call : TransferCall) (length : Int32) (fd : UInt32)

/-- What the probe does to the maps. -/
def Probe.fire (cfg : Config) (b : Bss) (task : Task) : Probe → Bss
  | .sysOpen fname => Bpf.sysOpen cfg b task fname
  | .sysOpenExit ret => Bpf.sysOpenExit cfg b task ret
  | .sysSocketExit ret => Bpf.sysSocketExit cfg b task ret
  | .sysTransfer call length fd => (Bpf.sysTransfer cfg b task call length fd).2

/-- Where `main` is. -/
inductive MainPhase where
  /-- In `while (!stop)`. -/
  | tracing
  /-- Past the loop, the node killed, before the copy. -/
  | leaving
  | ended
deriving DecidableEq

/-- The environment and the program's arguments, as far as `main` reads them. -/
structure Launch where
  cfg : Config
  /-- `getenv("DST_FUZZ") != NULL`. -/
  dstFuzz : Bool
  /-- `getenv(FUZZ_COVERAGE_MAP_ENV_ID) != NULL`. -/
  mapId : Bool

structure Tracer extends Launch where
  bss : Bss
  phase : MainPhase

/-- The process, its probes attached and the node forked. -/
def Launch.start (l : Launch) : Tracer where
  toLaunch := l
  bss := .init
  phase := .tracing

inductive Signal where
  | sigint | sigquit | sigterm | sigkill
deriving DecidableEq

inductive TracerEvent where
  | probe (task : Task) (p : Probe)
  /-- `waitpid` returns the node. -/
  | childExits
  | signal (sig : Signal)
  /-- The part of `main` after the loop. -/
  | finish

/-- One step of a process. Only `SIGINT` has a handler. -/
def stepTracer (tr : Tracer) : TracerEvent → Tracer
  | .probe task p =>
    if tr.phase = .tracing then { tr with bss := p.fire tr.cfg tr.bss task } else tr
  | .childExits => if tr.phase = .tracing then { tr with phase := .leaving } else tr
  | .signal .sigint => if tr.phase = .tracing then { tr with phase := .leaving } else tr
  | .signal _ => { tr with phase := .ended }
  | .finish => if tr.phase = .leaving then { tr with phase := .ended } else tr

/-! ### All of them -/

variable {ν : Type*}

/-- The shared map and the injector processes of an execution. -/
structure System (ν : Type*) where
  shared : CovMap
  tracers : ν → Tracer

/-- The process that copies its map to the shared one in this step, if any. -/
def publisher (s : System ν) : ν × TracerEvent → Option ν
  | (n, .finish) =>
    if (s.tracers n).phase = .leaving ∧ (s.tracers n).dstFuzz = true ∧ (s.tracers n).mapId = true
    then some n else none
  | _ => none

theorem publisher_eq_some {s : System ν} {e : ν × TracerEvent} {m : ν}
    (h : publisher s e = some m) : e = (m, .finish) ∧ (s.tracers m).phase = .leaving := by
  obtain ⟨n, e⟩ := e
  cases e with
  | finish =>
    rw [publisher] at h
    split_ifs at h with hp
    obtain rfl := Option.some.inj h
    exact ⟨rfl, hp.1⟩
  | _ => exact absurd h (by simp [publisher])

/-- The shared map is set wherever the map of some process is, which is what a merge of the maps
would lead to. -/
def Merged (s : System ν) : Prop :=
  ∀ n i, (s.tracers n).bss.fuzzCoverageMap i ≠ 0 → s.shared i ≠ 0

variable [DecidableEq ν]

/-- A step of one process; publishing is a `memcpy` over the whole shared map. -/
def step (s : System ν) (e : ν × TracerEvent) : System ν where
  shared :=
    match publisher s e with
    | some n => (s.tracers n).bss.fuzzCoverageMap
    | none => s.shared
  tracers := Function.update s.tracers e.1 (stepTracer (s.tracers e.1) e.2)

/-- The processes as they are launched. -/
def start (shared : CovMap) (launches : ν → Launch) : System ν where
  shared := shared
  tracers n := (launches n).start

/-- The process that published last in a run, if any did. -/
def lastPublisher (s : System ν) (events : List (ν × TracerEvent)) : Option ν :=
  (outputs step publisher s events).reduceOption.getLast?

/-- The map of the process that published last is set wherever that of some process
is; if none published, the shared map was so from the start. -/
def LastCovers (s : System ν) (events : List (ν × TracerEvent)) : Prop :=
  ∀ n i, ((run step s events).tracers n).bss.fuzzCoverageMap i ≠ 0 →
    match lastPublisher s events with
    | some m => ((run step s events).tracers m).bss.fuzzCoverageMap i ≠ 0
    | none => s.shared i ≠ 0

/-! ### The last one wins -/

@[simp] theorem step_tracers_self (s : System ν) (e : ν × TracerEvent) :
    (step s e).tracers e.1 = stepTracer (s.tracers e.1) e.2 := Function.update_self ..

theorem step_tracers_of_ne {s : System ν} {e : ν × TracerEvent} {n : ν} (h : n ≠ e.1) :
    (step s e).tracers n = s.tracers n := Function.update_of_ne h ..

theorem stepTracer_of_ended {tr : Tracer} (h : tr.phase = .ended) (e : TracerEvent) :
    stepTracer tr e = tr := by
  have htr : { tr with phase := .ended } = tr := by
    rw [← h]
  cases e with
  | signal sig =>
    cases sig with
    | sigint => simp [stepTracer, h]
    | sigquit => exact htr
    | sigterm => exact htr
    | sigkill => exact htr
  | _ => simp [stepTracer, h]

/-- A process that has ended keeps its map. -/
theorem step_of_ended {s : System ν} {m : ν} (h : (s.tracers m).phase = .ended)
    (e : ν × TracerEvent) : (step s e).tracers m = s.tracers m := by
  by_cases hm : m = e.1
  · subst hm
    rw [step_tracers_self, stepTracer_of_ended h]
  · exact step_tracers_of_ne hm

/-- What publishing leaves: the shared map is that of the last publisher, which has
ended. -/
def Published (shared : CovMap) (history : List (Option ν)) (s : System ν) : Prop :=
  match history.reduceOption.getLast? with
  | some m => s.shared = (s.tracers m).bss.fuzzCoverageMap ∧ (s.tracers m).phase = .ended
  | none => s.shared = shared

theorem published_step {shared : CovMap} {history : List (Option ν)} {s : System ν}
    (h : Published shared history s) (e : ν × TracerEvent) :
    Published shared (history ++ [publisher s e]) (step s e) := by
  unfold Published at h ⊢
  -- the tracer that publishes writes its whole map, and is the last one from then on
  cases hp : publisher s e with
  | some m =>
    obtain ⟨rfl, hphase⟩ := publisher_eq_some hp
    have hm : (step s (m, .finish)).tracers m = { s.tracers m with phase := .ended } := by
      refine (step_tracers_self s (m, .finish)).trans ?_
      rw [stepTracer, if_pos hphase]
    rw [reduceOption_concat_some, List.getLast?_concat]
    dsimp only
    rw [hm]
    refine ⟨?_, rfl⟩
    rw [step, hp]
  | none =>
    have hshared : (step s e).shared = s.shared := by
      rw [step, hp]
    rw [reduceOption_concat_none, hshared]
    cases hlast : history.reduceOption.getLast? with
    | some m =>
      rw [hlast] at h
      dsimp only at h ⊢
      rw [step_of_ended h.2]
      exact h
    | none =>
      rw [hlast] at h
      exact h

theorem published_run (s : System ν) (events : List (ν × TracerEvent)) :
    Published s.shared (outputs step publisher s events) (run step s events) := by
  have hstart : Published s.shared [] s := rfl
  have h := outputs_inv (Published s.shared) (fun _ _ e h => published_step h e) hstart events
  rwa [List.nil_append] at h

/-- However the processes end and in whatever order: what their maps have set is set
in the shared map exactly if the map of the last one to publish has it all. -/
theorem merged_iff (shared : CovMap) (launches : ν → Launch) (events : List (ν × TracerEvent)) :
    Merged (run step (start shared launches) events)
      ↔ LastCovers (start shared launches) events := by
  have h := published_run (start shared launches) events
  unfold Merged LastCovers lastPublisher
  unfold Published at h
  refine forall_congr' fun n => forall_congr' fun i => imp_congr_right fun _ => ?_
  split at h
  · rw [h.1]
  · rw [h]

/-- Node `false` and node `true` under the fuzzer. -/
def twoNodes (n : Bool) : Launch where
  cfg := ⟨if n then 1001 else 1000, fun _ => 0, if n then 1 else 0⟩
  dstFuzz := true
  mapId := true

/-- Each node writes once; then the nodes exit, `first` before the other, and their
injectors with them. -/
def oneWriteEach (first : Bool) : List (Bool × TracerEvent) :=
  [(false, .probe ⟨none, 1000, 1000⟩ (.sysTransfer .write 0 0)),
    (true, .probe ⟨none, 1001, 1001⟩ (.sysTransfer .write 0 0)),
    (first, .childExits), (first, .finish), (!first, .childExits), (!first, .finish)]

/-- The state once the two have ended. -/
def afterBoth (first : Bool) : System Bool :=
  run step (start (fun _ => 0) twoNodes) (oneWriteEach first)

/-- Whichever node exits first, all it covered is lost. -/
theorem oneWriteEach_overwritten :
    ((∀ n, ((afterBoth false).tracers n).phase = .ended) ∧ ¬Merged (afterBoth false)) ∧
      (∀ n, ((afterBoth true).tracers n).phase = .ended) ∧ ¬Merged (afterBoth true) := by
  refine ⟨⟨by decide, fun h => ?_⟩, by decide, fun h => ?_⟩
  · exact h false ⟨10, by decide⟩ (by decide) (by decide)
  · exact h true ⟨110, by decide⟩ (by decide) (by decide)

/-! ### Nodes stopped by the node manager -/

/-- The step neither lets a node exit nor sends `SIGINT`: the node manager's
`terminate` is a `SIGKILL`. -/
def Terminates (_ : System ν) (e : ν × TracerEvent) : Prop :=
  e.2 ≠ .childExits ∧ e.2 ≠ .signal .sigint

theorem stepTracer_phase_ne {tr : Tracer} {e : TracerEvent} (h : tr.phase ≠ .leaving)
    (hexit : e ≠ .childExits) (hint : e ≠ .signal .sigint) :
    (stepTracer tr e).phase ≠ .leaving := by
  cases e with
  | probe task p =>
    rw [stepTracer]
    split_ifs
    · exact h
    · exact h
  | childExits => exact absurd rfl hexit
  | signal sig =>
    cases sig with
    | sigint => exact absurd rfl hint
    | sigquit => exact MainPhase.noConfusion
    | sigterm => exact MainPhase.noConfusion
    | sigkill => exact MainPhase.noConfusion
  | finish =>
    rw [stepTracer, if_neg h]
    exact h

/-- Then nothing is published at all. -/
theorem shared_of_terminated (shared : CovMap) (launches : ν → Launch)
    {events : List (ν × TracerEvent)}
    (h : Steps step Terminates (start shared launches) events) :
    (run step (start shared launches) events).shared = shared := by
  -- no process ever leaves its loop
  refine (run_inv (fun s => s.shared = shared ∧ ∀ n, (s.tracers n).phase ≠ .leaving) ?_ ?_ h).1
  · rintro s e ⟨hshared, hphase⟩ ⟨hexit, hint⟩
    have hnone : publisher s e = none := by
      cases hp : publisher s e with
      | none => rfl
      | some m => exact absurd (publisher_eq_some hp).2 (hphase m)
    refine ⟨?_, fun n => ?_⟩
    · rw [step, hnone]
      exact hshared
    · by_cases hn : n = e.1
      · subst hn
        rw [step_tracers_self]
        exact stepTracer_phase_ne (hphase _) hexit hint
      · rw [step_tracers_of_ne hn]
        exact hphase n
  · exact ⟨rfl, fun n => MainPhase.noConfusion⟩

end DistFuzz.Bpf.Merge
