import DistFuzz.CoverageMap
import DistFuzz.Lib.Runs
import Mathlib.Data.Multiset.Basic

/-!
# Symmetry-based pruning (strace/src/dst_fuzz.c:113–143, 397–412)

Every injected system call ends at the label `EXIT` of `handle_random_event`:
`get_hash_value` picks a cell from the number of the event within its process,
the system call, its length and the fault flag, and the cell is incremented.
All node processes share the map and the counter `*global_index`; the counter
`event_index` belongs to the process, so a restarted node starts at `0` again.

- `getHashValue`: the hash with the integer widths of the source.
- `recordEvent`: the atomic update at `EXIT`.
- `System`, `stepSystem`: any number of processes, started at any time, taking
  their updates in any order.
- `histories`: what each process recorded, in its own order.
- `run_cell`: in reduction mode a cell depends on the histories alone; neither
  the node ids nor the order in which processes took turns leave a trace, and
  `*global_index`, which every update advances, is never read.
-/

namespace DistFuzz.Injector

open DistFuzz.Lib

/-- The environment variables `get_hash_value` reads: whether `NO_REDUCTION`
is set, and `atoi(getenv("NODE_ID"))`. -/
structure HashEnv where
  noReduction : Bool
  nodeId : Int32

/-- What `get_hash_value` is told about an event. -/
structure Recorded where
  syscallNo : UInt32
  length : UInt64
  faultInjected : Bool
deriving DecidableEq, Repr

/-- `get_hash_value` without its two increments. `index` and `node_id` are
`int`s; the sum is taken in `uint32_t` until `length` widens it. The argument
`position` is overwritten with `0`. -/
def getHashValue (env : HashEnv) (eventIndex globalIndex : UInt64) (e : Recorded) : UInt64 :=
  let position : UInt64 := 0
  let nodeId : Int32 := if env.noReduction then env.nodeId else 0
  let index : UInt32 := if env.noReduction then globalIndex.toUInt32 else eventIndex.toUInt32
  (((index + e.syscallNo * 10).toUInt64 + e.length + (nodeId * 100).toInt64.toUInt64
      + position) <<< (if e.faultInjected then 1 else 0)) % UInt64.ofNat mapSize

/-- The hash is an index of the map. -/
theorem getHashValue_lt (env : HashEnv) (eventIndex globalIndex : UInt64) (e : Recorded) :
    (getHashValue env eventIndex globalIndex e).toNat < mapSize := by
  rw [getHashValue]
  exact toNat_mod_lt _

/-- `hash_index` as an index of the map. -/
def hashIndex (env : HashEnv) (eventIndex globalIndex : UInt64) (e : Recorded) :
    Fin mapSize :=
  ⟨(getHashValue env eventIndex globalIndex e).toNat, getHashValue_lt env _ _ e⟩

/-- In reduction mode only the process's own counter and the event count. -/
theorem hashIndex_reduction {env : HashEnv} (henv : env.noReduction = false)
    (eventIndex globalIndex : UInt64) (e : Recorded) :
    hashIndex env eventIndex globalIndex e = hashIndex ⟨false, 0⟩ eventIndex 0 e := by
  refine Fin.ext ?_
  show (getHashValue env eventIndex globalIndex e).toNat
    = (getHashValue ⟨false, 0⟩ eventIndex 0 e).toNat
  rw [getHashValue, getHashValue, henv]
  rfl

/-! ## The processes of one execution -/

/-- The memory the node processes share. -/
structure Shared where
  fuzzCoverageMap : CovMap
  globalIndex : UInt64

/-- One traced node process: its environment and its `event_index`. -/
structure NodeProcess where
  env : HashEnv
  eventIndex : UInt64

/-- The update at `EXIT`: hash, advance both counters, increment the cell. -/
def recordEvent (sh : Shared) (p : NodeProcess) (e : Recorded) : Shared × NodeProcess :=
  ({ fuzzCoverageMap := incr sh.fuzzCoverageMap (hashIndex p.env p.eventIndex sh.globalIndex e)
     globalIndex := sh.globalIndex + 1 },
   { p with eventIndex := p.eventIndex + 1 })

/-- The node processes of one execution, in the order they were started. -/
structure System where
  shared : Shared
  procs : List NodeProcess

/-- A node process is started (or restarted), or the process at position `pid`
takes its next update. -/
inductive Action where
  | start (env : HashEnv)
  | record (pid : Nat) (e : Recorded)

/-- One atomic action. Nothing happens at a position no process was started at. -/
def stepSystem (s : System) : Action → System
  | .start env => { s with procs := s.procs ++ [⟨env, 0⟩] }
  | .record pid e =>
    match s.procs[pid]? with
    | none => s
    | some p =>
      let r := recordEvent s.shared p e
      { shared := r.1, procs := s.procs.set pid r.2 }

/-- The events of every process so far, after one more action. -/
def stepHistories (hs : List (List Recorded)) : Action → List (List Recorded)
  | .start _ => hs ++ [[]]
  | .record pid e => hs.modify pid (· ++ [e])

/-- The sequence of events recorded by each process of a run. -/
def histories (acts : List Action) : List (List Recorded) := run stepHistories [] acts

/-- Every process of the run has `NO_REDUCTION` unset. -/
def Reduction (acts : List Action) : Prop :=
  ∀ env, Action.start env ∈ acts → env.noReduction = false

/-! ## What a cell depends on -/

/-- The cells a process increments, from its own history: event `j` is hashed
at `event_index = j`. -/
def historyCells (h : List Recorded) : List (Fin mapSize) :=
  h.zipIdx.map fun p => hashIndex ⟨false, 0⟩ (UInt64.ofNat p.2) 0 p.1

theorem historyCells_concat (h : List Recorded) (e : Recorded) :
    historyCells (h ++ [e])
      = historyCells h ++ [hashIndex ⟨false, 0⟩ (UInt64.ofNat h.length) 0 e] := by
  rw [historyCells, List.zipIdx_append, List.map_append]
  simp [historyCells]

/-- How often cell `j` is incremented by processes with these histories. -/
def cellCount (j : Fin mapSize) (hs : List (List Recorded)) : Nat :=
  (hs.map fun h => (historyCells h).count j).sum

theorem cellCount_start (j : Fin mapSize) (hs : List (List Recorded)) :
    cellCount j (hs ++ [[]]) = cellCount j hs := by
  simp [cellCount, historyCells]

/-- One more event of one process is one more increment, of its own cell. -/
theorem cellCount_record {hs : List (List Recorded)} {pid : Nat} {h : List Recorded}
    (hpid : hs[pid]? = some h) (j : Fin mapSize) (e : Recorded) :
    cellCount j (hs.modify pid (· ++ [e]))
      = cellCount j hs
        + [hashIndex ⟨false, 0⟩ (UInt64.ofNat h.length) 0 e].count j := by
  induction hs generalizing pid with
  | nil => cases hpid
  | cons g hs ih =>
    cases pid with
    | zero =>
      obtain rfl : g = h := Option.some.inj hpid
      rw [List.modify_zero_cons]
      simp only [cellCount, List.map_cons, List.sum_cons, historyCells_concat,
        List.count_append]
      omega
    | succ pid =>
      rw [List.modify_succ_cons]
      have := ih hpid
      simp only [cellCount, List.map_cons, List.sum_cons] at this ⊢
      omega

/-- The order of the processes does not matter to a cell. -/
theorem cellCount_congr {hs hs' : List (List Recorded)}
    (h : (hs : Multiset (List Recorded)) = hs') (j : Fin mapSize) :
    cellCount j hs = cellCount j hs' :=
  ((Multiset.coe_eq_coe.mp h).map _).sum_eq

/-- A system state agrees with the histories that led to it, from a map `m`: each process has
counted its own events, and the map has what they recorded. -/
structure Tracks (m : CovMap) (hs : List (List Recorded)) (s : System) : Prop where
  length_eq : hs.length = s.procs.length
  proc : ∀ (pid : Nat) (h : List Recorded) (p : NodeProcess),
    hs[pid]? = some h → s.procs[pid]? = some p →
    p.env.noReduction = false ∧ p.eventIndex = UInt64.ofNat h.length
  cell : ∀ j, s.shared.fuzzCoverageMap j = m j + UInt8.ofNat (cellCount j hs)

theorem tracks_init (sh : Shared) : Tracks sh.fuzzCoverageMap [] ⟨sh, []⟩ := by
  refine { length_eq := rfl, proc := fun pid h p hh _ => (nomatch hh), cell := fun j => ?_ }
  exact (UInt8.add_zero _).symm

/-- Starting a process keeps the agreement: it has recorded nothing yet. -/
theorem tracks_start {m : CovMap} {hs : List (List Recorded)} {s : System}
    (ht : Tracks m hs s) {env : HashEnv} (henv : env.noReduction = false) :
    Tracks m (stepHistories hs (.start env)) (stepSystem s (.start env)) := by
  refine { length_eq := ?_, proc := fun pid h p hh hp => ?_, cell := fun j => ?_ }
  · simp [stepHistories, stepSystem, ht.length_eq]
  · simp only [stepHistories, stepSystem] at hh hp
    by_cases hlt : pid < hs.length
    · rw [List.getElem?_append_left hlt] at hh
      rw [List.getElem?_append_left (ht.length_eq ▸ hlt)] at hp
      exact ht.proc pid h p hh hp
    · rw [List.getElem?_append_right (by omega)] at hh
      rw [List.getElem?_append_right (by have := ht.length_eq; omega),
        ← ht.length_eq] at hp
      cases hk : pid - hs.length with
      | zero =>
        rw [hk] at hh hp
        obtain rfl : [] = h := Option.some.inj hh
        obtain rfl : (⟨env, 0⟩ : NodeProcess) = p := Option.some.inj hp
        exact ⟨henv, rfl⟩
      | succ k =>
        rw [hk] at hh
        cases hh
  · rw [stepHistories, cellCount_start]
    exact ht.cell j

/-- An update of a process keeps the agreement: it increments the cell that its
history says is next. -/
theorem tracks_record {m : CovMap} {hs : List (List Recorded)} {s : System}
    (ht : Tracks m hs s) (pid : Nat) (e : Recorded) :
    Tracks m (stepHistories hs (.record pid e)) (stepSystem s (.record pid e)) := by
  cases hp : s.procs[pid]? with
  | none =>
    -- nobody is there, and neither the system nor the histories change
    have hlen : hs.length ≤ pid := by
      rw [ht.length_eq]
      exact List.getElem?_eq_none_iff.mp hp
    have h1 : stepHistories hs (.record pid e) = hs := List.modify_eq_self hlen
    have h2 : stepSystem s (.record pid e) = s := by simp only [stepSystem, hp]
    rw [h1, h2]
    exact ht
  | some p =>
    have hlt : pid < hs.length := by
      rw [ht.length_eq]
      exact (List.getElem?_eq_some_iff.mp hp).1
    obtain ⟨h, hh⟩ : ∃ h, hs[pid]? = some h := ⟨hs[pid], List.getElem?_eq_getElem hlt⟩
    obtain ⟨henv, hidx⟩ := ht.proc pid h p hh hp
    have hstep : stepSystem s (.record pid e) =
        { shared := (recordEvent s.shared p e).1,
          procs := s.procs.set pid (recordEvent s.shared p e).2 } := by
      simp only [stepSystem, hp]
    rw [hstep]
    refine { length_eq := ?_, proc := fun pid' h' p' hh' hp' => ?_, cell := fun j => ?_ }
    · rw [stepHistories, List.length_modify, List.length_set, ht.length_eq]
    · by_cases heq : pid = pid'
      · -- `event_index` stays the number of events the process has recorded
        subst heq
        rw [stepHistories, List.getElem?_modify_eq, hh] at hh'
        rw [List.getElem?_set_self (ht.length_eq ▸ hlt)] at hp'
        obtain rfl := Option.some.inj hh'
        obtain rfl := Option.some.inj hp'
        refine ⟨henv, ?_⟩
        show p.eventIndex + 1 = UInt64.ofNat (h ++ [e]).length
        rw [List.length_append, UInt64.ofNat_add, hidx]
        rfl
      · rw [stepHistories, List.getElem?_modify_ne _ _ heq] at hh'
        rw [List.getElem?_set_ne heq] at hp'
        exact ht.proc pid' h' p' hh' hp'
    · show incr s.shared.fuzzCoverageMap _ j = _
      rw [stepHistories, cellCount_record hh, UInt8.ofNat_add, ← UInt8.add_assoc, ← ht.cell,
        ← foldl_incr_apply, hidx, hashIndex_reduction henv]
      rfl

/-- The agreement is kept along a run in reduction mode. -/
theorem tracks_run {m : CovMap} {acts : List Action} (hred : Reduction acts)
    {hs : List (List Recorded)} {s : System} (ht : Tracks m hs s) :
    Tracks m (run stepHistories hs acts) (run stepSystem s acts) := by
  induction acts generalizing hs s with
  | nil => exact ht
  | cons a acts ih =>
    have hrest : Reduction acts := by
      intro env henv
      exact hred env (List.mem_cons_of_mem a henv)
    rw [run_cons, run_cons]
    cases a with
    | start env => exact ih hrest (tracks_start ht (hred env List.mem_cons_self))
    | record pid e => exact ih hrest (tracks_record ht pid e)

/-- **A cell after any run in reduction mode**: its start value plus the number
of its occurrences in the histories. -/
theorem run_cell {acts : List Action} (hred : Reduction acts) (sh : Shared)
    (j : Fin mapSize) :
    (run stepSystem ⟨sh, []⟩ acts).shared.fuzzCoverageMap j
      = sh.fuzzCoverageMap j + UInt8.ofNat (cellCount j (histories acts)) :=
  (tracks_run hred (tracks_init sh)).cell j

/-- **Symmetry-based pruning**: two executions in reduction mode whose
processes recorded the same event sequences, in any assignment to nodes and in
any interleaving, end with the same coverage map, wherever `*global_index`
started. -/
theorem coverage_symmetric {acts acts' : List Action} (hred : Reduction acts)
    (hred' : Reduction acts')
    (hhist : (histories acts : Multiset (List Recorded)) = histories acts')
    {sh sh' : Shared} (hmap : sh.fuzzCoverageMap = sh'.fuzzCoverageMap) :
    (run stepSystem ⟨sh, []⟩ acts).shared.fuzzCoverageMap
      = (run stepSystem ⟨sh', []⟩ acts').shared.fuzzCoverageMap := by
  funext j
  rw [run_cell hred sh j, run_cell hred' sh' j, hmap, cellCount_congr hhist j]

/-- Two nodes: node 1 reads (system call 0) and sends (44) with a fault, node 2
writes (1) and is restarted in between. -/
def twoNodes : List Action :=
  [.start ⟨false, 1⟩, .start ⟨false, 2⟩, .record 0 ⟨0, 64, false⟩, .record 1 ⟨1, 16, false⟩,
    .start ⟨false, 2⟩, .record 0 ⟨44, 32, true⟩, .record 2 ⟨1, 16, false⟩]

/-- The same sequences with the node ids exchanged, one process after another. -/
def twoNodesSwapped : List Action :=
  [.start ⟨false, 1⟩, .record 0 ⟨1, 16, false⟩, .start ⟨false, 1⟩, .record 1 ⟨1, 16, false⟩,
    .start ⟨false, 2⟩, .record 2 ⟨0, 64, false⟩, .record 2 ⟨44, 32, true⟩]

theorem coverage_symmetric_twoNodes :
    (histories twoNodes : Multiset (List Recorded)) = histories twoNodesSwapped ∧
    (run stepSystem ⟨⟨fun _ => 0, 0⟩, []⟩ twoNodes).shared.fuzzCoverageMap
      = (run stepSystem ⟨⟨fun _ => 0, 9⟩, []⟩ twoNodesSwapped).shared.fuzzCoverageMap := by
  have hhist : (histories twoNodes : Multiset (List Recorded)) = histories twoNodesSwapped := by
    decide
  refine ⟨hhist, coverage_symmetric (fun env henv => ?_) (fun env henv => ?_) hhist rfl⟩
  · simp only [twoNodes, List.mem_cons, Action.start.injEq, reduceCtorEq, List.not_mem_nil,
      or_false, false_or] at henv
    rcases henv with rfl | rfl | rfl <;> rfl
  · simp only [twoNodesSwapped, List.mem_cons, Action.start.injEq, reduceCtorEq,
      List.not_mem_nil, or_false, false_or] at henv
    rcases henv with rfl | rfl | rfl <;> rfl

end DistFuzz.Injector
