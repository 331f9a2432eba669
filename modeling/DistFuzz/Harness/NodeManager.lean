import DistFuzz.Lib.Runs
import Mathlib.Data.List.Basic
import Mathlib.Data.List.Nodup
import Mathlib.Data.UInt

/-!
# The node manager
(core/include/dst_node_manager.hpp, operator/dst_start_new_node.hpp,
core/src/operator/dst_random_kill.cpp, dst_random_start.cpp)

The harness keeps one `NodeInfo` for each node of the system under test. Critical
operators stop a random node, start a stopped one, or add a node. A node's
position in `node_processes`, its `node_id` and the `node_count` of the manager
are three things that have to agree, since nodes are looked up by id.

The model adds to the manager a log of the processes it launched. Of
`boost::process` it assumes that a launched child runs until it is stopped and
that `terminate`, or `SIGTERM` followed by `wait`, stops it. Indexing past the end
and following a null pointer is `none`.

- `startAll`, `startNode`, `stopNode`, `check`: the manager.
- `randomKill`, `randomStart`, `startNewNode`: the operators.
- `Sound`: the invariant, with the log index of a node counting its launches.
- `nodup_keys_iff`: the numbers of the launches are distinct as long as no node was
  launched more than `2 ^ 32` times, and no longer.
- `sound_startAll`, `sound_stopNode`, `sound_startNode`, `sound_addNode`: it holds
  at first and is kept; `node_manager_sound`: all along a run, for as long as
  the number of nodes does not pass `2 ^ 32`.
-/

namespace DistFuzz.Harness

open DistFuzz.Lib

/-! ## Nodes and launches -/

/-- What does not change during a run: the configuration generator, the search
path, and how nodes are started. -/
structure NodeConfig where
  getConfigureString : UInt32 → UInt32 → String
  getDataFolder : UInt32 → String
  searchPath : String → String
  startWithEbpf : Bool
  startWithRr : Bool
  startWithCriu : Bool

/-- A `boost::process::child`. -/
structure Child where
  running : Bool

/-- `kill(id(), SIGTERM)`, then `wait()`. -/
def Child.killWait (_ : Child) : Child := ⟨false⟩

/-- `terminate()`. -/
def Child.terminate (_ : Child) : Child := ⟨false⟩

structure NodeInfo where
  nodeId : UInt32
  shouldAlive : Bool
  logIndex : UInt32
  startCommand : String
  /-- `none` is the null pointer. -/
  process : Option Child

/-- A process that was launched for a node. -/
structure Launch where
  nodeId : UInt32
  logIndex : UInt32
  command : String
  env : List (String × String)
  stdOut : String
  stdErr : String
  /-- The directory `rr` records to, if it runs the node. -/
  recording : Option String
  /-- The file `strace` writes to, if it runs the node. -/
  straceLog : Option String

/-- `std::to_string`. -/
def toDecimal (n : UInt32) : String := n.toNat.repr

/-- A file name made of the two numbers of a launch. -/
def outputName (stem : String) (nodeId logIndex : UInt32) : String :=
  stem ++ toDecimal nodeId ++ "_" ++ toDecimal logIndex

def logFile : UInt32 → UInt32 → String := outputName "log_app_"

def errLogFile : UInt32 → UInt32 → String := outputName "log_app_err"

def rrRec : UInt32 → UInt32 → String := outputName "rr_rec_"

/-- The log of `strace` has no log index: each launch of a node rewrites it. -/
def straceLogFile (nodeId : UInt32) : String := "strace_log_" ++ toDecimal nodeId

/-- The outputs of a launch that are named after both of its numbers: all but the log of
`strace`. -/
def Launch.numbered (l : Launch) : List String := [l.stdOut, l.stdErr] ++ l.recording.toList

/-- The command line of `start_process`. -/
def commandLine (cfg : NodeConfig) (ni : NodeInfo) : String :=
  if cfg.startWithEbpf then
    cfg.searchPath "dst_fuzz_fault" ++ " " ++ ni.startCommand
  else if cfg.startWithRr then
    cfg.searchPath "rr" ++ " record -n -o " ++ rrRec ni.nodeId ni.logIndex ++ " " ++ ni.startCommand
  else if cfg.startWithCriu then
    cfg.searchPath "criu" ++ " dump -t " ++ ni.startCommand
  else
    cfg.searchPath "strace" ++ " -f -o " ++ straceLogFile ni.nodeId ++ " " ++ ni.startCommand

/-- The variables `start_process` adds to the environment. -/
def nodeEnv (cfg : NodeConfig) (ni : NodeInfo) : List (String × String) :=
  [("DATA_DIR", cfg.getDataFolder ni.nodeId),
   ("__DST_ENV_RANDOM_FILE__", "random_node" ++ toDecimal ni.nodeId),
   ("NODE_NAME", "node" ++ toDecimal ni.nodeId),
   ("NODE_ID", toDecimal ni.nodeId),
   ("DST_FUZZ", "1")]

/-- What `start_process` launches. -/
def launchOf (cfg : NodeConfig) (ni : NodeInfo) : Launch :=
  { nodeId := ni.nodeId
    logIndex := ni.logIndex
    command := commandLine cfg ni
    env := nodeEnv cfg ni
    stdOut := logFile ni.nodeId ni.logIndex
    stdErr := errLogFile ni.nodeId ni.logIndex
    recording :=
      if !cfg.startWithEbpf && cfg.startWithRr then some (rrRec ni.nodeId ni.logIndex) else none
    straceLog :=
      if cfg.startWithEbpf || cfg.startWithRr || cfg.startWithCriu then none
      else some (straceLogFile ni.nodeId) }

/-- `start_process`, which always returns `true`: the node afterwards. -/
def startProcess (ni : NodeInfo) : NodeInfo :=
  { ni with process := some ⟨true⟩, logIndex := ni.logIndex + 1 }

/-! ## The manager -/

structure NodeManager where
  nodeCount : UInt32
  nodeProcesses : List NodeInfo
  /-- The launches so far, the latest last. -/
  launches : List Launch

/-- A manager that has started nothing. -/
def NodeManager.new (nodeCount : UInt32) : NodeManager := ⟨nodeCount, [], []⟩

/-- `check`. -/
def check : List NodeInfo → Option Bool
  | [] => some true
  | ni :: rest =>
    match ni.process with
    | none => none
    | some c =>
      if ni.shouldAlive && !c.running then some false
      else if !ni.shouldAlive && c.running then some false
      else check rest

/-- The entry `start_all` makes for node `i`. -/
def freshNode (cfg : NodeConfig) (nodeCount : UInt32) (i : Nat) : NodeInfo :=
  { nodeId := UInt32.ofNat i
    shouldAlive := true
    logIndex := 0
    startCommand := cfg.getConfigureString (UInt32.ofNat i) nodeCount
    process := none }

/-- `start_all`. -/
def startAll (cfg : NodeConfig) (nm : NodeManager) : Option (Bool × NodeManager) :=
  let nodes := nm.nodeProcesses ++ (List.range nm.nodeCount.toNat).map (freshNode cfg nm.nodeCount)
  let nm' : NodeManager :=
    { nm with
      nodeProcesses := nodes.map startProcess
      launches := nm.launches ++ nodes.map (launchOf cfg) }
  (check nm'.nodeProcesses).map (·, nm')

/-- `start_node`. -/
def startNode (cfg : NodeConfig) (nm : NodeManager) (i : UInt32) : Option (Bool × NodeManager) :=
  if i > nm.nodeCount - 1 then some (false, nm)
  else
    match nm.nodeProcesses[i.toNat]? with
    | none => none
    | some ni =>
      if ni.shouldAlive then some (true, nm)
      else
        some (true,
          { nm with
            nodeProcesses :=
              nm.nodeProcesses.set i.toNat { startProcess ni with shouldAlive := true }
            launches := nm.launches ++ [launchOf cfg ni] })

/-- `stop_node`. -/
def stopNode (cfg : NodeConfig) (nm : NodeManager) (i : UInt32) : Option (Bool × NodeManager) :=
  if i > nm.nodeCount - 1 then some (false, nm)
  else
    match nm.nodeProcesses[i.toNat]? with
    | none => none
    | some ni =>
      if !ni.shouldAlive then some (true, nm)
      else
        ni.process.map fun c =>
          let stopped := if cfg.startWithRr then c.killWait else c.terminate
          (true,
            { nm with
              nodeProcesses :=
                nm.nodeProcesses.set i.toNat
                  { ni with process := some stopped, shouldAlive := false } })

/-- The loop of `stop_all`. -/
def stopEach (cfg : NodeConfig) : List NodeInfo → Option (List NodeInfo)
  | [] => some []
  | ni :: rest =>
    ni.process.bind fun c =>
      let stopped := if cfg.startWithRr then c.killWait else c.terminate
      (stopEach cfg rest).map ({ ni with process := some stopped, shouldAlive := false } :: ·)

/-- `stop_all`. -/
def stopAll (cfg : NodeConfig) (nm : NodeManager) : Option (Bool × NodeManager) :=
  (stopEach cfg nm.nodeProcesses).map fun nodes => (true, { nm with nodeProcesses := nodes })

/-! ## The operators -/

/-- The node a byte picks among those that satisfy `p`. -/
def pickNode (p : NodeInfo → Bool) (nm : NodeManager) (b : UInt8) : Option NodeInfo :=
  (nm.nodeProcesses.filter p)[b.toNat % (nm.nodeProcesses.filter p).length]?

/-- `RandomKill::_do`. -/
def randomKill (cfg : NodeConfig) (nm : NodeManager) (b : UInt8) : Option (Bool × NodeManager) :=
  match pickNode (·.shouldAlive) nm b with
  | none => some (true, nm)
  | some ni => stopNode cfg nm ni.nodeId

/-- `RandomStart::_do`. -/
def randomStart (cfg : NodeConfig) (nm : NodeManager) (b : UInt8) : Option (Bool × NodeManager) :=
  match pickNode (!·.shouldAlive) nm b with
  | none => some (true, nm)
  | some ni => startNode cfg nm ni.nodeId

/-- The first part of `StartNewNode::_do`: count the node and append its entry. -/
def addNode (cfg : NodeConfig) (nm : NodeManager) : NodeManager :=
  let nodeCount := nm.nodeCount + 1
  let nodeId := nodeCount - 1
  { nm with
    nodeCount := nodeCount
    nodeProcesses := nm.nodeProcesses ++
      [{ nodeId := nodeId
         shouldAlive := false
         logIndex := 0
         startCommand := cfg.getConfigureString nodeId nodeCount
         process := none }] }

/-- `StartNewNode::_do`. -/
def startNewNode (cfg : NodeConfig) (nm : NodeManager) : Option (Bool × NodeManager) :=
  startNode cfg (addNode cfg nm) ((addNode cfg nm).nodeCount - 1)

/-- An operator, with the random byte it reads. -/
inductive NodeOp where
  | randomKill (b : UInt8)
  | randomStart (b : UInt8)
  | startNewNode
deriving DecidableEq, Repr

def NodeOp.isStartNewNode : NodeOp → Bool
  | .startNewNode => true
  | _ => false

/-- `_do`. -/
def doOp (cfg : NodeConfig) (nm : NodeManager) : NodeOp → Option (Bool × NodeManager)
  | .randomKill b => randomKill cfg nm b
  | .randomStart b => randomStart cfg nm b
  | .startNewNode => startNewNode cfg nm

/-- The manager after an operator, `none` once it went wrong. -/
def stepNodes (cfg : NodeConfig) (s : Option NodeManager) (op : NodeOp) : Option NodeManager :=
  s.bind fun nm => (doOp cfg nm op).map (·.2)

/-! ## Names of output files -/

theorem underscore_notMem_toDigits (n : Nat) : '_' ∉ Nat.toDigits 10 n := by
  intro hmem
  exact absurd (Nat.isDigit_of_mem_toDigits (by decide) (by decide) hmem) (by decide)

theorem toList_outputName (stem : String) (i k : UInt32) :
    (outputName stem i k).toList
      = stem.toList ++ (Nat.toDigits 10 i.toNat ++ '_' :: Nat.toDigits 10 k.toNat) := by
  unfold outputName toDecimal
  rw [String.toList_append, String.toList_append, String.toList_append, Nat.toList_repr,
    Nat.toList_repr, List.append_assoc, List.append_assoc]
  rfl

/-- A name tells the node and its log index. -/
theorem outputName_inj {stem : String} {i k i' k' : UInt32}
    (h : outputName stem i k = outputName stem i' k') : i = i' ∧ k = k' := by
  have hlist := congrArg String.toList h
  rw [toList_outputName, toList_outputName] at hlist
  obtain ⟨hi, -, hk⟩ := (List.append_cons_inj_of_notMem (underscore_notMem_toDigits _)
    (underscore_notMem_toDigits _)).mp (List.append_cancel_left hlist)
  have hdigits : ∀ {a b : UInt32}, Nat.toDigits 10 a.toNat = Nat.toDigits 10 b.toNat → a = b := by
    intro a b hab
    have hval := congrArg (Nat.ofDigitChars 10 · 0) hab
    rw [Nat.ofDigitChars_ten_toDigits, Nat.ofDigitChars_ten_toDigits] at hval
    exact UInt32.toNat_inj.mp hval
  exact ⟨hdigits hi, hdigits hk⟩

/-- A letter of the one stem that is not in the other tells the names apart. -/
theorem outputName_ne {stem stem' : String} {i k i' k' : UInt32} (c : Char)
    (hdigit : c.isDigit = false) (hunder : c ≠ '_') (hc : c ∈ stem.toList)
    (hc' : c ∉ stem'.toList) : outputName stem i k ≠ outputName stem' i' k' := by
  intro heq
  have hmem : c ∈ (outputName stem' i' k').toList := by
    rw [← heq, toList_outputName]
    exact List.mem_append_left _ hc
  have hno : ∀ n, c ∉ Nat.toDigits 10 n := fun n hn =>
    absurd (Nat.isDigit_of_mem_toDigits (by decide) (by decide) hn) (by rw [hdigit]; decide)
  rw [toList_outputName, List.mem_append, List.mem_append, List.mem_cons] at hmem
  rcases hmem with h | h | h | h
  · exact hc' h
  · exact hno _ h
  · exact hunder h
  · exact hno _ h

theorem logFile_ne_errLogFile (i k i' k' : UInt32) : logFile i k ≠ errLogFile i' k' :=
  (outputName_ne 'e' (by decide) (by decide) (by decide) (by decide)).symm

theorem logFile_ne_rrRec (i k i' k' : UInt32) : logFile i k ≠ rrRec i' k' :=
  outputName_ne 'l' (by decide) (by decide) (by decide) (by decide)

theorem errLogFile_ne_rrRec (i k i' k' : UInt32) : errLogFile i k ≠ rrRec i' k' :=
  outputName_ne 'l' (by decide) (by decide) (by decide) (by decide)

/-- The number pair of a launch. -/
def Launch.key (l : Launch) : UInt32 × UInt32 := (l.nodeId, l.logIndex)

/-- The launch is one `start_process` makes. -/
def Launch.Named (l : Launch) : Prop :=
  l.stdOut = logFile l.nodeId l.logIndex ∧ l.stdErr = errLogFile l.nodeId l.logIndex ∧
    ∀ r ∈ l.recording, r = rrRec l.nodeId l.logIndex

theorem named_launchOf (cfg : NodeConfig) (ni : NodeInfo) : (launchOf cfg ni).Named := by
  refine ⟨rfl, rfl, fun r hr => ?_⟩
  unfold launchOf at hr
  dsimp only at hr
  split at hr
  · exact (Option.some.inj hr).symm
  · cases hr

/-- The kinds of output of a launch. -/
theorem mem_numbered {l : Launch} (hl : l.Named) {f : String} (hf : f ∈ l.numbered) :
    f = logFile l.nodeId l.logIndex ∨ f = errLogFile l.nodeId l.logIndex ∨
      f = rrRec l.nodeId l.logIndex := by
  obtain ⟨hout, herr, hrec⟩ := hl
  unfold Launch.numbered at hf
  rcases List.mem_append.mp hf with hf | hf
  · rcases List.mem_cons.mp hf with rfl | hf
    · exact .inl hout
    · obtain rfl := List.mem_singleton.mp hf
      exact .inr (.inl herr)
  · exact .inr (.inr (hrec f (Option.mem_toList.mp hf)))

theorem nodup_numbered_launch {l : Launch} (hl : l.Named) : l.numbered.Nodup := by
  obtain ⟨hout, herr, hrec⟩ := hl
  unfold Launch.numbered
  rw [hout, herr]
  cases hr : l.recording with
  | none => simp [logFile_ne_errLogFile]
  | some r =>
    obtain rfl := hrec r hr
    simp [logFile_ne_errLogFile, logFile_ne_rrRec, errLogFile_ne_rrRec]

/-- Launches with different numbers write different files. -/
theorem disjoint_numbered {l l' : Launch} (hl : l.Named) (hl' : l'.Named) (hkey : l.key ≠ l'.key) :
    List.Disjoint l.numbered l'.numbered := by
  have hsame : ∀ stem, outputName stem l.nodeId l.logIndex
      ≠ outputName stem l'.nodeId l'.logIndex := by
    intro stem heq
    obtain ⟨hid, hidx⟩ := outputName_inj heq
    exact hkey (Prod.ext hid hidx)
  intro f hf hf'
  rcases mem_numbered hl hf with rfl | rfl | rfl <;> rcases mem_numbered hl' hf' with h | h | h
  · exact hsame _ h
  · exact logFile_ne_errLogFile _ _ _ _ h
  · exact logFile_ne_rrRec _ _ _ _ h
  · exact logFile_ne_errLogFile _ _ _ _ h.symm
  · exact hsame _ h
  · exact errLogFile_ne_rrRec _ _ _ _ h
  · exact logFile_ne_rrRec _ _ _ _ h.symm
  · exact errLogFile_ne_rrRec _ _ _ _ h.symm
  · exact hsame _ h

/-- If no two launches have the same numbers, no file is written twice. -/
theorem nodup_numbered {ls : List Launch} (hnamed : ∀ l ∈ ls, l.Named)
    (hkeys : (ls.map Launch.key).Nodup) : (ls.flatMap Launch.numbered).Nodup := by
  refine List.nodup_flatMap.mpr ⟨fun l hl => nodup_numbered_launch (hnamed l hl), ?_⟩
  refine (List.pairwise_map.mp hkeys).imp_of_mem fun hl hl' hne => ?_
  exact disjoint_numbered (hnamed _ hl) (hnamed _ hl') hne

/-! ## Counting the launches of a node -/

/-- The launches of a node. -/
def launchesOf (id : UInt32) (ls : List Launch) : List Launch := ls.filter (·.nodeId = id)

theorem launchesOf_concat_self (ls : List Launch) (l : Launch) :
    launchesOf l.nodeId (ls ++ [l]) = launchesOf l.nodeId ls ++ [l] := by
  rw [launchesOf, List.filter_append, List.filter_singleton, decide_eq_true rfl, launchesOf]
  rfl

theorem launchesOf_concat_other {id : UInt32} {l : Launch} (hne : l.nodeId ≠ id)
    (ls : List Launch) : launchesOf id (ls ++ [l]) = launchesOf id ls := by
  rw [launchesOf, List.filter_append, List.filter_singleton, decide_eq_false hne, launchesOf]
  exact List.append_nil _

/-- The launches of every node are numbered from zero on, modulo `2 ^ 32`, which is where
`log_index` wraps. -/
def Counted (ls : List Launch) : Prop :=
  ∀ id, (launchesOf id ls).map Launch.logIndex =
    (List.range (launchesOf id ls).length).map UInt32.ofNat

/-- A launch that takes the next number. -/
theorem Counted.concat {ls : List Launch} (h : Counted ls) {l : Launch}
    (hl : l.logIndex = UInt32.ofNat (launchesOf l.nodeId ls).length) : Counted (ls ++ [l]) := by
  intro id
  by_cases hid : l.nodeId = id
  · subst hid
    rw [launchesOf_concat_self, List.map_append, h, List.length_append, List.length_singleton,
      List.range_succ, List.map_append, List.map_singleton, List.map_singleton, hl]
  · rw [launchesOf_concat_other hid]
    exact h id

/-- How often a pair of numbers was used, from the launches of the one node. -/
theorem count_key (ls : List Launch) (id k : UInt32) :
    (ls.map Launch.key).count (id, k) = ((launchesOf id ls).map Launch.logIndex).count k := by
  rw [List.count_eq_countP, List.countP_map, List.count_eq_countP, List.countP_map, launchesOf,
    List.countP_filter]
  refine List.countP_congr fun l _ => ?_
  simp only [Function.comp_apply, Launch.key, beq_iff_eq, Prod.mk.injEq, Bool.and_eq_true,
    decide_eq_true_eq]
  exact and_comm

/-- There are `2 ^ 32` numbers. -/
theorem nodup_numbers_iff (n : Nat) : ((List.range n).map UInt32.ofNat).Nodup ↔ n ≤ 2 ^ 32 := by
  refine ⟨fun hnodup => not_lt.mp fun hlt => ?_, fun hle => ?_⟩
  · -- the first number comes again
    have hzero := List.inj_on_of_nodup_map hnodup (List.mem_range.mpr (Nat.zero_lt_of_lt hlt))
      (List.mem_range.mpr hlt) (by decide)
    exact absurd hzero (by decide)
  · refine List.nodup_range.map_on fun a ha b hb hab => ?_
    have hval := congrArg UInt32.toNat hab
    rw [List.mem_range] at ha hb
    rwa [UInt32.toNat_ofNat', UInt32.toNat_ofNat', Nat.mod_eq_of_lt (by omega),
      Nat.mod_eq_of_lt (by omega)] at hval

/-- **The numbers of the launches** are distinct exactly if no node was launched more than
`2 ^ 32` times. -/
theorem nodup_keys_iff {ls : List Launch} (h : Counted ls) :
    (ls.map Launch.key).Nodup ↔ ∀ id, (launchesOf id ls).length ≤ 2 ^ 32 := by
  calc (ls.map Launch.key).Nodup
      ↔ ∀ id k, (ls.map Launch.key).count (id, k) ≤ 1 := by
        rw [List.nodup_iff_count_le_one, Prod.forall]
    _ ↔ ∀ id, ((launchesOf id ls).map Launch.logIndex).Nodup := by
        refine forall_congr' fun id => ?_
        rw [List.nodup_iff_count_le_one]
        exact forall_congr' fun k => by rw [count_key]
    _ ↔ ∀ id, (launchesOf id ls).length ≤ 2 ^ 32 :=
        forall_congr' fun id => by rw [h id, nodup_numbers_iff]

/-! ## The invariant -/

/-- The node at position `i`: its id is its position, its process is there and runs
exactly if it should, and its log index counts its launches. -/
structure NodeOk (launches : List Launch) (i : Nat) (ni : NodeInfo) : Prop where
  id : ni.nodeId.toNat = i
  process : ni.process = some ⟨ni.shouldAlive⟩
  logIndex : ni.logIndex = UInt32.ofNat (launchesOf ni.nodeId launches).length

/-- The manager, apart from the node that is being started. Ids are positions, each node has the
process that its entry says, and the launches of a node are numbered without a gap. -/
structure Sound (nm : NodeManager) (pending : Option Nat) : Prop where
  size : nm.nodeProcesses.length = nm.nodeCount.toNat
  nodes : ∀ i ni, nm.nodeProcesses[i]? = some ni → some i ≠ pending → NodeOk nm.launches i ni
  named : ∀ l ∈ nm.launches, l.Named
  known : ∀ l ∈ nm.launches, l.nodeId.toNat < nm.nodeProcesses.length
  counted : Counted nm.launches

theorem check_of_running : ∀ {nodes : List NodeInfo},
    (∀ ni ∈ nodes, ni.process = some ⟨ni.shouldAlive⟩) → check nodes = some true
  | [], _ => rfl
  | ni :: rest, h => by
    unfold check
    rw [h ni List.mem_cons_self]
    dsimp only
    rw [Bool.and_not_self, Bool.not_and_self, if_neg (by decide), if_neg (by decide)]
    exact check_of_running fun ni' hni' => h ni' (List.mem_cons_of_mem _ hni')

theorem Sound.node {nm : NodeManager} {i : Nat} (h : Sound nm none) {ni : NodeInfo}
    (hi : nm.nodeProcesses[i]? = some ni) : NodeOk nm.launches i ni :=
  h.nodes i ni hi (Option.some_ne_none i)

theorem Sound.except {nm : NodeManager} (h : Sound nm none) (pending : Option Nat) :
    Sound nm pending :=
  ⟨h.size, fun _ _ hi _ => h.node hi, h.named, h.known, h.counted⟩

/-- The range check of `start_node` and `stop_node` passes at an id in use. -/
theorem nodeId_in_range {nm : NodeManager} (hsize : nm.nodeProcesses.length = nm.nodeCount.toNat)
    {i : UInt32} (hi : i.toNat < nm.nodeProcesses.length) : ¬i > nm.nodeCount - 1 := by
  rw [hsize] at hi
  intro hgt
  have hpos : (1 : UInt32) ≤ nm.nodeCount :=
    UInt32.le_iff_toNat_le.mpr (by rw [UInt32.toNat_one]; omega)
  have hlt := UInt32.lt_iff_toNat_lt.mp hgt
  rw [UInt32.toNat_sub_of_le _ _ hpos, UInt32.toNat_one] at hlt
  omega

/-- The entry of a node that was stopped. -/
def stoppedNode (ni : NodeInfo) : NodeInfo :=
  { ni with process := some ⟨false⟩, shouldAlive := false }

/-- Both ways to stop a child stop it. -/
theorem stopped_eq (cfg : NodeConfig) (c : Child) :
    (if cfg.startWithRr = true then c.killWait else c.terminate) = ⟨false⟩ := ite_self _

section AtNode

variable {nm : NodeManager} {i : Nat} {ni : NodeInfo}

/-- `stop_node` at an alive node whose id is its position. -/
theorem stopNode_eq (cfg : NodeConfig) (hsize : nm.nodeProcesses.length = nm.nodeCount.toNat)
    (hi : nm.nodeProcesses[i]? = some ni) (hid : ni.nodeId.toNat = i)
    (halive : ni.shouldAlive = true) {c : Child} (hproc : ni.process = some c) :
    stopNode cfg nm ni.nodeId = some (true, { nm with
      nodeProcesses := nm.nodeProcesses.set i (stoppedNode ni) }) := by
  have hlt : ni.nodeId.toNat < nm.nodeProcesses.length :=
    hid ▸ (List.getElem?_eq_some_iff.mp hi).1
  unfold stopNode
  rw [if_neg (nodeId_in_range hsize hlt), hid, hi]
  dsimp only
  rw [halive, hproc, Bool.not_true, if_neg (by decide), Option.map_some, stopped_eq]
  rfl

/-- `start_node` at a stopped node whose id is its position. -/
theorem startNode_eq (cfg : NodeConfig) (hsize : nm.nodeProcesses.length = nm.nodeCount.toNat)
    (hi : nm.nodeProcesses[i]? = some ni) (hid : ni.nodeId.toNat = i)
    (hstopped : ni.shouldAlive = false) :
    startNode cfg nm ni.nodeId = some (true, { nm with
      nodeProcesses := nm.nodeProcesses.set i { startProcess ni with shouldAlive := true }
      launches := nm.launches ++ [launchOf cfg ni] }) := by
  have hlt : ni.nodeId.toNat < nm.nodeProcesses.length :=
    hid ▸ (List.getElem?_eq_some_iff.mp hi).1
  unfold startNode
  rw [if_neg (nodeId_in_range hsize hlt), hid, hi]
  dsimp only
  rw [hstopped, if_neg (by decide)]

end AtNode

/-- What holds of every entry still does when one is replaced. -/
theorem forall_getElem?_set {α : Type*} {P : Nat → α → Prop} {xs : List α} {i : Nat} {a : α}
    (hxs : ∀ j x, xs[j]? = some x → j ≠ i → P j x) (ha : P i a) :
    ∀ j x, (xs.set i a)[j]? = some x → P j x := by
  intro j x hj
  rw [List.getElem?_set] at hj
  split at hj
  · next heq =>
    split at hj
    · obtain rfl := Option.some.inj hj
      exact heq ▸ ha
    · cases hj
  · next hne => exact hxs j x hj (Ne.symm hne)

/-- **Stopping** an alive node. -/
theorem sound_stopNode (cfg : NodeConfig) {nm : NodeManager} {i : Nat} (h : Sound nm none)
    {ni : NodeInfo} (hi : nm.nodeProcesses[i]? = some ni) (halive : ni.shouldAlive = true) :
    ∃ nm', stopNode cfg nm ni.nodeId = some (true, nm') ∧ Sound nm' none ∧
      nm'.nodeCount = nm.nodeCount ∧
      nm'.nodeProcesses = nm.nodeProcesses.set i (stoppedNode ni) ∧
      nm'.launches = nm.launches := by
  obtain ⟨hid, hproc, hlog⟩ := h.node hi
  refine ⟨_, stopNode_eq cfg h.size hi hid halive hproc, ?_, rfl, rfl, rfl⟩
  refine { size := ?_, nodes := ?_, named := h.named, known := ?_, counted := h.counted }
  · exact (List.length_set ..).trans h.size
  · intro j nj hj _
    refine forall_getElem?_set (P := NodeOk nm.launches) ?_ ?_ j nj hj
    · intro j nj hj _
      exact h.node hj
    · exact ⟨hid, rfl, hlog⟩
  · intro l hl
    dsimp only
    rw [List.length_set]
    exact h.known l hl

/-- What holds of every launch still does when one is added. -/
theorem forall_mem_concat {α : Type*} {P : α → Prop} {xs : List α} {a : α}
    (hxs : ∀ x ∈ xs, P x) (ha : P a) : ∀ x ∈ xs ++ [a], P x := by
  intro x hx
  rcases List.mem_append.mp hx with hx | hx
  · exact hxs x hx
  · obtain rfl := List.mem_singleton.mp hx
    exact ha

/-- A launch of another node does not concern this one. -/
theorem NodeOk.launch_other {launches : List Launch} {i : Nat} {ni : NodeInfo}
    (h : NodeOk launches i ni) {l : Launch} (hne : l.nodeId ≠ ni.nodeId) :
    NodeOk (launches ++ [l]) i ni :=
  ⟨h.id, h.process, by rw [launchesOf_concat_other hne]; exact h.logIndex⟩

/-- Its own launch takes the log index, and the next one counts it. -/
theorem nodeOk_started (cfg : NodeConfig) {launches : List Launch} {i : Nat} {ni : NodeInfo}
    (hid : ni.nodeId.toNat = i)
    (hlog : ni.logIndex = UInt32.ofNat (launchesOf ni.nodeId launches).length) :
    NodeOk (launches ++ [launchOf cfg ni]) i { startProcess ni with shouldAlive := true } := by
  refine ⟨hid, rfl, ?_⟩
  show ni.logIndex + 1 = UInt32.ofNat (launchesOf ni.nodeId (launches ++ [launchOf cfg ni])).length
  have hself := launchesOf_concat_self launches (launchOf cfg ni)
  rw [show (launchOf cfg ni).nodeId = ni.nodeId from rfl] at hself
  rw [hself, List.length_append, UInt32.ofNat_add, hlog]
  rfl

/-- **Starting** the node that is pending: it is stopped and its log index counts its
launches. -/
theorem sound_startNode (cfg : NodeConfig) {nm : NodeManager} {i : Nat}
    (h : Sound nm (some i)) {ni : NodeInfo} (hi : nm.nodeProcesses[i]? = some ni)
    (hid : ni.nodeId.toNat = i) (hstopped : ni.shouldAlive = false)
    (hlog : ni.logIndex = UInt32.ofNat (launchesOf ni.nodeId nm.launches).length) :
    ∃ nm', startNode cfg nm ni.nodeId = some (true, nm') ∧ Sound nm' none ∧
      nm'.nodeCount = nm.nodeCount ∧ nm'.nodeProcesses =
        nm.nodeProcesses.set i { startProcess ni with shouldAlive := true } ∧
      nm'.launches = nm.launches ++ [launchOf cfg ni] := by
  have hlt : i < nm.nodeProcesses.length := (List.getElem?_eq_some_iff.mp hi).1
  refine ⟨_, startNode_eq cfg h.size hi hid hstopped, ?_, rfl, rfl, rfl⟩
  refine
    { size := ?_
      nodes := ?_
      named := forall_mem_concat h.named (named_launchOf cfg ni)
      known := ?_
      counted := h.counted.concat hlog }
  · exact (List.length_set ..).trans h.size
  · intro j nj hj _
    refine forall_getElem?_set (P := NodeOk (nm.launches ++ [launchOf cfg ni])) ?_ ?_ j nj hj
    · intro j nj hj hne
      -- the launch is of this node, so it does not count for the others
      have hnj := h.nodes j nj hj fun heq => hne (Option.some.inj heq)
      refine hnj.launch_other fun heq => hne ?_
      exact hnj.id.symm.trans ((congrArg UInt32.toNat heq).symm.trans hid)
    · exact nodeOk_started cfg hid hlog
  · dsimp only
    rw [List.length_set]
    exact forall_mem_concat h.known (hid.trans_lt hlt)

/-- A stopped node that was started before can be started again. -/
theorem sound_restart (cfg : NodeConfig) {nm : NodeManager} {i : Nat} (h : Sound nm none)
    {ni : NodeInfo} (hi : nm.nodeProcesses[i]? = some ni) (hstopped : ni.shouldAlive = false) :
    ∃ nm', startNode cfg nm ni.nodeId = some (true, nm') ∧ Sound nm' none ∧
      nm'.nodeCount = nm.nodeCount ∧ nm'.nodeProcesses =
        nm.nodeProcesses.set i { startProcess ni with shouldAlive := true } ∧
      nm'.launches = nm.launches ++ [launchOf cfg ni] := by
  obtain ⟨hid, -, hlog⟩ := h.node hi
  exact sound_startNode cfg (h.except (some i)) hi hid hstopped hlog

/-- **Adding** the entry of a node, which is then pending. -/
theorem sound_addNode (cfg : NodeConfig) {nm : NodeManager} (h : Sound nm none)
    (hcount : nm.nodeCount.toNat + 1 < 2 ^ 32) :
    Sound (addNode cfg nm) (some nm.nodeProcesses.length) := by
  have hlength : (addNode cfg nm).nodeProcesses.length = nm.nodeProcesses.length + 1 :=
    List.length_append
  refine { size := ?_, nodes := ?_, named := h.named, known := ?_, counted := h.counted }
  · rw [hlength, h.size]
    unfold addNode
    dsimp only
    rw [UInt32.toNat_add, UInt32.toNat_one, Nat.mod_eq_of_lt hcount]
  · intro j nj hj hne
    -- the entry that is added is the pending one, of which nothing is asked yet
    have hlt : j < nm.nodeProcesses.length := by
      have hj' := (List.getElem?_eq_some_iff.mp hj).1
      rw [hlength] at hj'
      exact lt_of_le_of_ne (Nat.lt_succ_iff.mp hj') fun heq => hne (congrArg some heq)
    unfold addNode at hj
    rw [List.getElem?_append_left hlt] at hj
    exact h.node hj
  · intro l hl
    rw [hlength]
    exact (h.known l hl).trans (Nat.lt_succ_self _)

/-- **Starting a new node**. -/
theorem sound_startNewNode (cfg : NodeConfig) {nm : NodeManager} (h : Sound nm none)
    (hcount : nm.nodeCount.toNat + 1 < 2 ^ 32) :
    ∃ nm', startNewNode cfg nm = some (true, nm') ∧ Sound nm' none ∧
      nm'.nodeCount = nm.nodeCount + 1 ∧
      ∃ ni, ni.shouldAlive = true ∧ nm'.nodeProcesses = nm.nodeProcesses ++ [ni] := by
  have hid : nm.nodeCount + 1 - 1 = nm.nodeCount := UInt32.add_sub_cancel _ _
  obtain ⟨ni, hni, hnid, hstopped, hidx⟩ : ∃ ni,
      (addNode cfg nm).nodeProcesses = nm.nodeProcesses ++ [ni] ∧ ni.nodeId = nm.nodeCount ∧
        ni.shouldAlive = false ∧ ni.logIndex = 0 := ⟨_, rfl, hid, rfl, rfl⟩
  have hlast : (addNode cfg nm).nodeProcesses[nm.nodeProcesses.length]? = some ni := by
    rw [hni, List.getElem?_append_right le_rfl, Nat.sub_self]
    rfl
  -- the id is new, so no launch has it
  have hnew : launchesOf ni.nodeId nm.launches = [] := by
    refine List.filter_eq_nil_iff.mpr fun l hl hlid => ?_
    have hknown := h.known l hl
    rw [of_decide_eq_true hlid, hnid, h.size] at hknown
    exact absurd hknown (Nat.lt_irrefl _)
  have hlog : ni.logIndex
      = UInt32.ofNat (launchesOf ni.nodeId (addNode cfg nm).launches).length := by
    rw [show (addNode cfg nm).launches = nm.launches from rfl, hnew, hidx]
    rfl
  obtain ⟨nm', hdo, hsound, hcount', hset, -⟩ := sound_startNode cfg (sound_addNode cfg h hcount)
    hlast (hnid ▸ h.size.symm) hstopped hlog
  refine ⟨nm', ?_, hsound, hcount', { startProcess ni with shouldAlive := true }, rfl, ?_⟩
  · unfold startNewNode
    rw [show (addNode cfg nm).nodeCount - 1 = ni.nodeId from hid.trans hnid.symm]
    exact hdo
  · rw [hset, hni, List.set_append_right _ _ le_rfl, Nat.sub_self]
    rfl

theorem toNat_freshNode (cfg : NodeConfig) (n : UInt32) {i : Nat} (hi : i < n.toNat) :
    (freshNode cfg n i).nodeId.toNat = i := by
  show (UInt32.ofNat i).toNat = i
  rw [UInt32.toNat_ofNat', Nat.mod_eq_of_lt (hi.trans n.toNat_lt)]

theorem mem_freshLaunches {cfg : NodeConfig} {n : UInt32} {l : Launch}
    (h : l ∈ ((List.range n.toNat).map (freshNode cfg n)).map (launchOf cfg)) :
    ∃ i < n.toNat, l = launchOf cfg (freshNode cfg n i) := by
  obtain ⟨ni, hni, rfl⟩ := List.mem_map.mp h
  obtain ⟨i, hi, rfl⟩ := List.mem_map.mp hni
  exact ⟨i, List.mem_range.mp hi, rfl⟩

/-- Of the first `m` nodes each is launched once. -/
theorem launchesOf_fresh (cfg : NodeConfig) (n : UInt32) {m i : Nat} (hm : m ≤ n.toNat)
    (hi : i < 2 ^ 32) :
    launchesOf (UInt32.ofNat i) (((List.range m).map (freshNode cfg n)).map (launchOf cfg))
      = if i < m then [launchOf cfg (freshNode cfg n i)] else [] := by
  induction m with
  | zero => rfl
  | succ m ih =>
    have hid : (launchOf cfg (freshNode cfg n m)).nodeId = UInt32.ofNat m := rfl
    rw [List.range_succ, List.map_append, List.map_append, List.map_singleton, List.map_singleton]
    by_cases him : i = m
    · subst him
      have hself := launchesOf_concat_self
        (((List.range i).map (freshNode cfg n)).map (launchOf cfg))
        (launchOf cfg (freshNode cfg n i))
      rw [hid] at hself
      rw [hself, ih (by omega), if_neg (Nat.lt_irrefl i), if_pos (Nat.lt_succ_self i)]
      rfl
    · -- two numbers below `2 ^ 32` are two ids
      have hne : (launchOf cfg (freshNode cfg n m)).nodeId ≠ UInt32.ofNat i := by
        intro heq
        have hval := congrArg UInt32.toNat (hid.symm.trans heq)
        have hn := n.toNat_lt
        rw [UInt32.toNat_ofNat', UInt32.toNat_ofNat', Nat.mod_eq_of_lt (by omega),
          Nat.mod_eq_of_lt hi] at hval
        exact him hval.symm
      rw [launchesOf_concat_other hne, ih (by omega)]
      exact if_congr (by omega) rfl rfl

theorem sound_fresh (cfg : NodeConfig) (n : UInt32) : Sound
    { nodeCount := n
      nodeProcesses := ((List.range n.toNat).map (freshNode cfg n)).map startProcess
      launches := ((List.range n.toNat).map (freshNode cfg n)).map (launchOf cfg) } none := by
  have hlength : (((List.range n.toNat).map (freshNode cfg n)).map startProcess).length
      = n.toNat := by
    rw [List.length_map, List.length_map, List.length_range]
  refine { size := hlength, nodes := ?_, named := ?_, known := ?_, counted := fun id => ?_ }
  · intro i ni hi _
    rw [List.getElem?_map, List.getElem?_map, Option.map_map, Option.map_eq_some_iff] at hi
    obtain ⟨j, hj, rfl⟩ := hi
    obtain ⟨hlt, rfl⟩ := List.getElem?_eq_some_iff.mp hj
    rw [List.length_range] at hlt
    rw [List.getElem_range]
    refine ⟨toNat_freshNode cfg n hlt, rfl, ?_⟩
    -- each node was launched once, which is what its log index says
    have hone := launchesOf_fresh cfg n le_rfl (hlt.trans n.toNat_lt)
    rw [if_pos hlt] at hone
    exact (congrArg (fun ls => UInt32.ofNat ls.length) hone).symm
  · intro l hl
    obtain ⟨i, -, rfl⟩ := mem_freshLaunches hl
    exact named_launchOf cfg _
  · intro l hl
    obtain ⟨i, hi, rfl⟩ := mem_freshLaunches hl
    dsimp only
    rw [hlength]
    exact (toNat_freshNode cfg n hi).trans_lt hi
  · have hid : UInt32.ofNat id.toNat = id := UInt32.ofNat_toNat
    have hone := launchesOf_fresh cfg n le_rfl id.toNat_lt
    rw [hid] at hone
    rw [hone]
    split
    · rfl
    · rfl

/-- **Starting all** nodes of a new manager. -/
theorem sound_startAll (cfg : NodeConfig) (n : UInt32) :
    ∃ nm, startAll cfg (.new n) = some (true, nm) ∧ Sound nm none ∧ nm.nodeCount = n := by
  refine ⟨_, ?_, sound_fresh cfg n, rfl⟩
  unfold startAll NodeManager.new
  dsimp only
  rw [List.nil_append, List.nil_append, check_of_running, Option.map_some]
  intro ni hni
  obtain ⟨i, hi⟩ := List.mem_iff_getElem?.mp hni
  exact ((sound_fresh cfg n).node hi).process

/-! ## Runs -/

/-- What the harness relies on after every step. The outputs that are kept apart are those
named after both numbers of a launch; the log of `strace` is not one of them. -/
structure Consistent (nm : NodeManager) : Prop where
  size : nm.nodeProcesses.length = nm.nodeCount.toNat
  ids : ∀ (i : Nat) ni, nm.nodeProcesses[i]? = some ni → ni.nodeId.toNat = i
  running : ∀ ni ∈ nm.nodeProcesses, ∃ c, ni.process = some c ∧
    (ni.shouldAlive = true ↔ c.running = true)
  check : check nm.nodeProcesses = some true
  keys : (nm.launches.map Launch.key).Nodup ↔ ∀ id, (launchesOf id nm.launches).length ≤ 2 ^ 32
  files : (nm.launches.map Launch.key).Nodup → (nm.launches.flatMap Launch.numbered).Nodup

/-- One node that satisfies `p` is changed so that it does not any more and no
other node is changed, or there is none and nothing is. -/
def FlipsOne (p : NodeInfo → Bool) (nm nm' : NodeManager) : Prop :=
  nm'.nodeCount = nm.nodeCount ∧
    ((∃ (i : Nat) (ni ni' : NodeInfo),
        nm.nodeProcesses[i]? = some ni ∧ p ni = true ∧ p ni' = false ∧
        ni'.nodeId = ni.nodeId ∧ nm'.nodeProcesses = nm.nodeProcesses.set i ni') ∨
      ((∀ ni ∈ nm.nodeProcesses, p ni = false) ∧ nm' = nm))

/-- The operator returns `true` and does what it is for. -/
def OpOk (cfg : NodeConfig) (s : Option NodeManager) (op : NodeOp) : Prop :=
  ∃ nm nm', s = some nm ∧ doOp cfg nm op = some (true, nm') ∧
    match op with
    | .randomKill _ => FlipsOne (·.shouldAlive) nm nm'
    | .randomStart _ => FlipsOne (!·.shouldAlive) nm nm'
    | .startNewNode =>
      ∃ ni, ni.shouldAlive = true ∧ nm'.nodeProcesses = nm.nodeProcesses ++ [ni]

theorem Sound.consistent {nm : NodeManager} (h : Sound nm none) : Consistent nm := by
  have hproc : ∀ ni ∈ nm.nodeProcesses, ni.process = some ⟨ni.shouldAlive⟩ := by
    intro ni hni
    obtain ⟨i, hi⟩ := List.mem_iff_getElem?.mp hni
    exact (h.node hi).process
  exact
    { size := h.size
      ids := fun i ni hi => (h.node hi).id
      running := fun ni hni => ⟨_, hproc ni hni, Iff.rfl⟩
      check := check_of_running hproc
      keys := nodup_keys_iff h.counted
      files := nodup_numbered h.named }

/-- A byte picks one of the nodes that satisfy `p`, if there are any. -/
theorem pickNode_cases (p : NodeInfo → Bool) (nm : NodeManager) (b : UInt8) :
    (pickNode p nm b = none ∧ ∀ ni ∈ nm.nodeProcesses, p ni = false) ∨
      ∃ (i : Nat) (ni : NodeInfo),
        pickNode p nm b = some ni ∧ nm.nodeProcesses[i]? = some ni ∧ p ni = true := by
  unfold pickNode
  rcases Nat.eq_zero_or_pos (nm.nodeProcesses.filter p).length with hzero | hpos
  · have hnil := List.length_eq_zero_iff.mp hzero
    refine .inl ⟨by rw [hnil]; rfl, fun ni hni => ?_⟩
    exact Bool.eq_false_of_not_eq_true (List.filter_eq_nil_iff.mp hnil ni hni)
  · have hlt := Nat.mod_lt b.toNat hpos
    have hget := List.getElem?_eq_getElem hlt
    obtain ⟨hmem, hp⟩ := List.mem_filter.mp (List.getElem_mem hlt)
    obtain ⟨i, hi⟩ := List.mem_iff_getElem?.mp hmem
    exact .inr ⟨i, _, hget, hi, hp⟩

/-- An operator that acts on the node it picks, if any, flips that one. -/
theorem sound_pick {p : NodeInfo → Bool} {nm : NodeManager} {b : UInt8}
    {did : Option (Bool × NodeManager)} (hstay : Sound nm none)
    (hnone : pickNode p nm b = none → did = some (true, nm))
    (hsome : ∀ i ni, pickNode p nm b = some ni → nm.nodeProcesses[i]? = some ni → p ni = true →
      ∃ nm' ni', did = some (true, nm') ∧ Sound nm' none ∧ nm'.nodeCount = nm.nodeCount ∧
        p ni' = false ∧ ni'.nodeId = ni.nodeId ∧
        nm'.nodeProcesses = nm.nodeProcesses.set i ni') :
    ∃ nm', did = some (true, nm') ∧ Sound nm' none ∧ FlipsOne p nm nm' := by
  rcases pickNode_cases p nm b with ⟨hpick, hall⟩ | ⟨i, ni, hpick, hi, hp⟩
  · exact ⟨nm, hnone hpick, hstay, rfl, .inr ⟨hall, rfl⟩⟩
  · obtain ⟨nm', ni', hdid, hsound, hcount, hp', hid, hset⟩ := hsome i ni hpick hi hp
    exact ⟨nm', hdid, hsound, hcount, .inl ⟨i, ni, ni', hi, hp, hp', hid, hset⟩⟩

theorem sound_randomKill (cfg : NodeConfig) {nm : NodeManager} (h : Sound nm none)
    (b : UInt8) : ∃ nm', randomKill cfg nm b = some (true, nm') ∧ Sound nm' none ∧
      FlipsOne (·.shouldAlive) nm nm' := by
  refine sound_pick (b := b) h (fun hpick => ?_) fun i ni hpick hi hp => ?_
  · rw [randomKill, hpick]
  · obtain ⟨nm', hstop, hsound, hcount, hset, -⟩ := sound_stopNode cfg h hi hp
    refine ⟨nm', _, ?_, hsound, hcount, ?_, ?_, hset⟩
    · rw [randomKill, hpick]
      exact hstop
    · rfl
    · rfl

theorem sound_randomStart (cfg : NodeConfig) {nm : NodeManager} (h : Sound nm none) (b : UInt8) :
    ∃ nm', randomStart cfg nm b = some (true, nm') ∧ Sound nm' none ∧
      FlipsOne (!·.shouldAlive) nm nm' := by
  refine sound_pick (b := b) h (fun hpick => ?_) fun i ni hpick hi hp => ?_
  · rw [randomStart, hpick]
  · obtain ⟨nm', hstart, hsound, hcount, hset, -⟩ := sound_restart cfg h hi (by simpa using hp)
    refine ⟨nm', _, ?_, hsound, hcount, ?_, ?_, hset⟩
    · rw [randomStart, hpick]
      exact hstart
    · rfl
    · rfl

/-- **One operator**: it adds at most one node. -/
theorem sound_doOp (cfg : NodeConfig) {nm : NodeManager} (h : Sound nm none)
    (op : NodeOp) (hnodes : nm.nodeCount.toNat + op.isStartNewNode.toNat < 2 ^ 32) :
    ∃ nm', OpOk cfg (some nm) op ∧ doOp cfg nm op = some (true, nm') ∧ Sound nm' none ∧
      nm'.nodeCount.toNat = nm.nodeCount.toNat + op.isStartNewNode.toNat := by
  cases op with
  | randomKill b =>
    obtain ⟨nm', hdo, hsound, hflips⟩ := sound_randomKill cfg h b
    exact ⟨nm', ⟨nm, nm', rfl, hdo, hflips⟩, hdo, hsound, congrArg UInt32.toNat hflips.1⟩
  | randomStart b =>
    obtain ⟨nm', hdo, hsound, hflips⟩ := sound_randomStart cfg h b
    exact ⟨nm', ⟨nm, nm', rfl, hdo, hflips⟩, hdo, hsound, congrArg UInt32.toNat hflips.1⟩
  | startNewNode =>
    obtain ⟨nm', hdo, hsound, hcount, hnew⟩ := sound_startNewNode cfg h hnodes
    refine ⟨nm', ⟨nm, nm', rfl, hdo, hnew⟩, hdo, hsound, ?_⟩
    rw [hcount, UInt32.toNat_add, UInt32.toNat_one]
    exact Nat.mod_eq_of_lt hnodes

/-- A sound manager stays so, with the operators it has room for. -/
theorem runs_sound (cfg : NodeConfig) {nm : NodeManager} (h : Sound nm none)
    {ops : List NodeOp}
    (hnodes : nm.nodeCount.toNat + ops.countP NodeOp.isStartNewNode < 2 ^ 32) :
    Always (stepNodes cfg) (fun s => ∃ nm, s = some nm ∧ Consistent nm) (some nm) ops ∧
      Steps (stepNodes cfg) (OpOk cfg) (some nm) ops := by
  induction ops generalizing nm with
  | nil => exact ⟨⟨nm, rfl, h.consistent⟩, trivial⟩
  | cons op ops ih =>
    -- the first operator spends its share of the bound
    have hcons : (op :: ops).countP NodeOp.isStartNewNode
        = op.isStartNewNode.toNat + ops.countP NodeOp.isStartNewNode := by
      rw [List.countP_cons, Nat.add_comm]
      cases op.isStartNewNode <;> rfl
    rw [hcons, ← Nat.add_assoc] at hnodes
    obtain ⟨nm', hok, hdo, hsound, hcount⟩ := sound_doOp cfg h op
      ((Nat.le_add_right _ _).trans_lt hnodes)
    have hstep : stepNodes cfg (some nm) op = some nm' := by
      unfold stepNodes
      rw [Option.bind_some, hdo, Option.map_some]
    rw [← hcount] at hnodes
    obtain ⟨halways, hsteps⟩ := ih hsound hnodes
    rw [Always, Steps, hstep]
    exact ⟨⟨⟨nm, rfl, h.consistent⟩, halways⟩, hok, hsteps⟩

/-- **The node manager**: after `start_all` with any number of nodes and after
every one of any sequence of operators, positions, ids and the node count agree,
nodes run exactly if they should, `check` returns `true`, and no two launches
used the same numbers or wrote the same files named after them, which is so exactly as
long as no node was launched more than `2 ^ 32` times; `RandomKill` and `RandomStart`
change one node or none. Fewer than `2 ^ 32` nodes have to be counted. -/
theorem node_manager_sound (cfg : NodeConfig) (n : UInt32) (ops : List NodeOp)
    (hnodes : n.toNat + ops.countP NodeOp.isStartNewNode < 2 ^ 32) :
    ∃ nm, startAll cfg (.new n) = some (true, nm) ∧
      Always (stepNodes cfg) (fun s => ∃ nm, s = some nm ∧ Consistent nm) (some nm) ops ∧
      Steps (stepNodes cfg) (OpOk cfg) (some nm) ops := by
  obtain ⟨nm, hstart, hsound, hcount⟩ := sound_startAll cfg n
  rw [← hcount] at hnodes
  exact ⟨nm, hstart, runs_sound cfg hsound hnodes⟩

/-- Nodes that are launched with their id as the start command. -/
def plainConfig : NodeConfig :=
  { getConfigureString := fun i _ => "node " ++ toDecimal i
    getDataFolder := fun _ => ""
    searchPath := id
    startWithEbpf := false
    startWithRr := false
    startWithCriu := false }

/-- Three nodes, one of which is killed and started again, and a fourth one. -/
theorem node_manager_sound_three :
    ∃ nm, startAll plainConfig (.new 3) = some (true, nm) ∧
      Always (stepNodes plainConfig) (fun s => ∃ nm, s = some nm ∧ Consistent nm) (some nm)
        [.randomKill 5, .randomStart 0, .startNewNode] ∧
      Steps (stepNodes plainConfig) (OpOk plainConfig) (some nm)
        [.randomKill 5, .randomStart 0, .startNewNode] :=
  node_manager_sound plainConfig 3 [.randomKill 5, .randomStart 0, .startNewNode] (by decide)

/-- Starting a node keeps the count and the number of entries. -/
theorem startNode_frame {cfg : NodeConfig} {nm nm' : NodeManager} {i : UInt32} {b : Bool}
    (h : startNode cfg nm i = some (b, nm')) :
    nm'.nodeCount = nm.nodeCount ∧ nm'.nodeProcesses.length = nm.nodeProcesses.length := by
  unfold startNode at h
  split at h
  · obtain ⟨-, rfl⟩ := Prod.mk.inj (Option.some.inj h)
    exact ⟨rfl, rfl⟩
  · split at h
    · cases h
    · split at h
      · obtain ⟨-, rfl⟩ := Prod.mk.inj (Option.some.inj h)
        exact ⟨rfl, rfl⟩
      · obtain ⟨-, rfl⟩ := Prod.mk.inj (Option.some.inj h)
        exact ⟨rfl, List.length_set ..⟩

/-- One node, which runs and was launched `k` times. -/
structure OneNode (nm : NodeManager) (k : Nat) : Prop where
  sound : Sound nm none
  count : nm.nodeCount = 1
  node : ∃ ni, nm.nodeProcesses = [ni] ∧ ni.nodeId = 0 ∧ ni.shouldAlive = true
  launched : (launchesOf 0 nm.launches).length = k

/-- It is killed and started again. -/
theorem oneNode_restart (cfg : NodeConfig) {nm : NodeManager} {k : Nat} (h : OneNode nm k) :
    ∃ nm', run (stepNodes cfg) (some nm) [.randomKill 0, .randomStart 0] = some nm' ∧
      OneNode nm' (k + 1) := by
  obtain ⟨ni, hnodes, hid, halive⟩ := h.node
  have hi : nm.nodeProcesses[0]? = some ni := by rw [hnodes]; rfl
  -- `RandomKill` finds the one node
  obtain ⟨nm₁, hstop, hsound₁, hcount₁, hset₁, hlaunch₁⟩ := sound_stopNode cfg h.sound hi halive
  have hkill : stepNodes cfg (some nm) (.randomKill 0) = some nm₁ := by
    have hpick : pickNode (·.shouldAlive) nm 0 = some ni := by
      rw [pickNode, hnodes, List.filter_singleton, halive]
      rfl
    rw [stepNodes, Option.bind_some, doOp, randomKill, hpick]
    dsimp only
    rw [hstop, Option.map_some]
  -- and so does `RandomStart`
  rw [hnodes, List.set_cons_zero] at hset₁
  have hi₁ : nm₁.nodeProcesses[0]? = some (stoppedNode ni) := by
    rw [hset₁]
    rfl
  obtain ⟨nm₂, hrestart, hsound₂, hcount₂, hset₂, hlaunch₂⟩ := sound_restart cfg hsound₁ hi₁ rfl
  have hstart : stepNodes cfg (some nm₁) (.randomStart 0) = some nm₂ := by
    have hpick : pickNode (!·.shouldAlive) nm₁ 0 = some (stoppedNode ni) := by
      rw [pickNode, hset₁]
      rfl
    rw [stepNodes, Option.bind_some, doOp, randomStart, hpick]
    dsimp only
    rw [hrestart, Option.map_some]
  rw [hset₁, List.set_cons_zero] at hset₂
  refine ⟨nm₂, by rw [run_cons, hkill, run_cons, hstart, run_nil], hsound₂,
    hcount₂.trans (hcount₁.trans h.count), ⟨_, hset₂, hid, rfl⟩, ?_⟩
  have hself := launchesOf_concat_self nm.launches (launchOf cfg (stoppedNode ni))
  rw [show (launchOf cfg (stoppedNode ni)).nodeId = 0 from hid] at hself
  rw [hlaunch₂, hlaunch₁, hself, List.length_append, h.launched]
  rfl

/-- Again and again. -/
theorem oneNode_restarts (cfg : NodeConfig) (n : Nat) {nm : NodeManager} {k : Nat}
    (h : OneNode nm k) :
    ∃ nm', run (stepNodes cfg) (some nm)
      (List.replicate n [NodeOp.randomKill 0, .randomStart 0]).flatten = some nm' ∧
      OneNode nm' (k + n) := by
  induction n generalizing nm k with
  | zero => exact ⟨nm, rfl, h⟩
  | succ n ih =>
    obtain ⟨nm₁, hrun₁, h₁⟩ := oneNode_restart cfg h
    obtain ⟨nm₂, hrun₂, h₂⟩ := ih h₁
    refine ⟨nm₂, ?_, by rwa [Nat.add_right_comm, Nat.add_assoc] at h₂⟩
    rw [List.replicate_succ, List.flatten_cons, run_append, hrun₁, hrun₂]

/-- With `2 ^ 32 - 1` nodes, one more makes `node_count` wrap to `0`. And a node that is
killed and started again `2 ^ 32` times uses its first log index once more. -/
theorem node_counts_wrap :
    (¬∃ nm, startAll plainConfig (.new 4294967295) = some (true, nm) ∧
      Always (stepNodes plainConfig) (fun s => ∃ nm, s = some nm ∧ Consistent nm) (some nm)
        [.startNewNode]) ∧
    ∃ nm nm', startAll plainConfig (.new 1) = some (true, nm) ∧
      run (stepNodes plainConfig) (some nm)
        (List.replicate (2 ^ 32) [NodeOp.randomKill 0, .randomStart 0]).flatten = some nm' ∧
      ¬(nm'.launches.map Launch.key).Nodup := by
  constructor
  · rintro ⟨nm, hstart, -, nm', hstep, hcons⟩
    -- the count wraps to zero while there is one more entry
    obtain ⟨nm₀, hstart₀, -, hcount⟩ := sound_startAll plainConfig 4294967295
    obtain ⟨-, rfl⟩ := Prod.mk.inj (Option.some.inj (hstart.symm.trans hstart₀))
    obtain ⟨⟨b, nm''⟩, hdo, rfl⟩ := Option.map_eq_some_iff.mp hstep
    obtain ⟨hcount', hlen⟩ := startNode_frame hdo
    have hsize := hcons.size
    rw [hlen, hcount'] at hsize
    unfold addNode at hsize
    dsimp only at hsize
    rw [hcount, List.length_append] at hsize
    exact absurd hsize (Nat.succ_ne_zero _)
  · have hone : OneNode _ 1 := ⟨sound_fresh plainConfig 1, rfl, ⟨_, rfl, rfl, rfl⟩, rfl⟩
    obtain ⟨nm', hrun, hlast⟩ := oneNode_restarts plainConfig (2 ^ 32) hone
    refine ⟨_, nm', rfl, hrun, fun hnodup => ?_⟩
    -- one launch more than there are log indices
    have hle := (nodup_keys_iff hlast.sound.counted).mp hnodup 0
    rw [hlast.launched] at hle
    omega

/-! ## The end of a run -/

theorem stopEach_eq (cfg : NodeConfig) : ∀ {nodes : List NodeInfo},
    (∀ ni ∈ nodes, ∃ c, ni.process = some c) → stopEach cfg nodes = some (nodes.map stoppedNode)
  | [], _ => rfl
  | ni :: rest, hproc => by
    obtain ⟨c, hc⟩ := hproc ni List.mem_cons_self
    have hrest := stopEach_eq cfg fun ni' hni' => hproc ni' (List.mem_cons_of_mem _ hni')
    unfold stopEach
    rw [hc, Option.bind_some, hrest]
    dsimp only
    rw [stopped_eq]
    rfl

/-- **`stop_all`** stops every node of a consistent manager. -/
theorem stopAll_consistent (cfg : NodeConfig) {nm : NodeManager} (h : Consistent nm) :
    ∃ nm', stopAll cfg nm = some (true, nm') ∧ Consistent nm' ∧
      ∀ ni ∈ nm'.nodeProcesses, ni.shouldAlive = false := by
  have hproc : ∀ ni ∈ nm.nodeProcesses, ∃ c, ni.process = some c := fun ni hni =>
    (h.running ni hni).imp fun _ hc => hc.1
  refine ⟨_, by rw [stopAll, stopEach_eq cfg hproc, Option.map_some], ?_, ?_⟩
  · have hstopped : ∀ ni ∈ nm.nodeProcesses.map stoppedNode,
        ni.process = some ⟨ni.shouldAlive⟩ := by
      intro ni hni
      obtain ⟨ni', -, rfl⟩ := List.mem_map.mp hni
      rfl
    exact
      { size := (List.length_map ..).trans h.size
        ids := fun i ni hi => by
          rw [List.getElem?_map, Option.map_eq_some_iff] at hi
          obtain ⟨ni', hi', rfl⟩ := hi
          exact h.ids i ni' hi'
        running := fun ni hni => ⟨_, hstopped ni hni, Iff.rfl⟩
        check := check_of_running hstopped
        keys := h.keys
        files := h.files }
  · intro ni hni
    obtain ⟨ni', -, rfl⟩ := List.mem_map.mp hni
    rfl

end DistFuzz.Harness
