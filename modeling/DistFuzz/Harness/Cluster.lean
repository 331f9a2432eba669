import DistFuzz.Harness.Shares
import DistFuzz.Injector.Causality
import DistFuzz.Injector.PhaseFlag

/-!
# A mutation and the cluster (core/src/dst_test_main.cpp:95–133,
core/include/dst_node_manager.hpp:217–272, strace/src/dst_fuzz.c)

Every node of the system under test runs under a strace process of its own, which takes
its decisions from the node's share of the test case. What the processes have in common
is the coverage map and the global event counter. The nodes are started, stopped and
started again while the others go on, and their system calls come in any order.

The question is what a mutation of the test case can change, and from when on. It is
answered for any sequence of inputs: what the kernel and the applications do is not
assumed to be related to anything.

- `Cluster`, `stepCluster`: the strace processes of all nodes and the shared memory.
- `AlikeCluster`, `alike_stepCluster`, `alike_runCluster`: two clusters that are alike
  at some of the nodes stay alike there.
- `mutation_waits`: the mutation has no effect before its first byte is read.
- `mutation_stays`: it never reaches what another node's injector does.
-/

namespace DistFuzz.Harness

open DistFuzz.Lib DistFuzz.Injector

/-! ### The cluster -/

/-- What is fixed when the nodes are started: how they are configured, what the
injectors find in the environment, and the files `split_files` left. -/
structure ClusterEnv where
  config : NodeConfig
  injectorEnv : InjectorEnv
  noReduction : Bool
  files : Files

/-- The strace process of each node that runs, and the memory they share. -/
structure Cluster where
  straces : UInt32 → Option Strace
  shared : Shared

/-- No node runs. -/
def Cluster.init (sh : Shared) : Cluster := ⟨fun _ => none, sh⟩

/-- `start_process` starts a node, a node is stopped, or a tracee of its strace
process stops. -/
inductive ClusterInput where
  | start (ni : NodeInfo)
  | stop (nodeId : UInt32)
  | input (nodeId : UInt32) (i : StraceInput)

/-- A strace process right after it was launched; none if it exits because it has no
random file. `NODE_ID` is read with `atoi`, which is exact below `2 ^ 31`. -/
def startStrace (e : ClusterEnv) (ni : NodeInfo) (sh : Shared) : Option Strace :=
  ((launchOf e.config ni).stream e.files).map fun r =>
    { injector := { InjectorState.init [] ⟨e.noReduction, ni.nodeId.toInt32⟩ sh with random := r }
      tcbs := fun _ => none }

/-- The process sees the memory as it is now. -/
def onShared (s : Strace) (sh : Shared) : Strace :=
  { s with injector := { s.injector with shared := sh } }

/-- The cluster after one input. -/
def stepCluster (e : ClusterEnv) (c : Cluster) : ClusterInput → Cluster
  | .start ni =>
    { c with straces := Function.update c.straces ni.nodeId (startStrace e ni c.shared) }
  | .stop nodeId => { c with straces := Function.update c.straces nodeId none }
  | .input nodeId i =>
    match c.straces nodeId with
    | none => c
    | some s =>
      let s' := stepStrace e.injectorEnv (onShared s c.shared) i
      { straces := Function.update c.straces nodeId (some s'), shared := s'.injector.shared }

/-- How many bytes of its share the process of a node has read. -/
def Cluster.bytesRead (c : Cluster) (id : UInt32) : Nat :=
  match c.straces id with
  | none => 0
  | some s => s.injector.random.fuzzFileIndex.toNat

/-- An input of one node changes that node and the shared memory. -/
theorem stepCluster_input (e : ClusterEnv) (c : Cluster) (id : UInt32) (i : StraceInput) :
    ∃ o sh, stepCluster e c (.input id i) = ⟨Function.update c.straces id o, sh⟩ := by
  rw [stepCluster]
  split
  · exact ⟨c.straces id, c.shared, by rw [Function.update_eq_self]⟩
  · exact ⟨_, _, rfl⟩

/-! ### Two clusters -/

section Alike

variable (N : UInt32 → Prop) (S : UInt32 → StreamPair) (T : Shared → Shared → Prop)

/-- At the nodes of `N` the strace processes are alike, each in its own way; the shared
memories are related. -/
structure AlikeCluster (c c' : Cluster) : Prop where
  nodes : ∀ id, N id → Option.Rel (AlikeStrace (S id) T) (c.straces id) (c'.straces id)
  shared : T c.shared c'.shared

/-- The nodes of `N` are started with related streams, whatever number a launch of them has. -/
def AlikeFiles (cfg : NodeConfig) (files files' : Files) : Prop :=
  ∀ ni : NodeInfo, N ni.nodeId → Option.Rel (S ni.nodeId).rel
    ((launchOf cfg ni).stream files) ((launchOf cfg ni).stream files')

/-- Every node of `N` is in the part of its stream that the two clusters have in
common. -/
def OkCluster (c : Cluster) : Prop :=
  ∀ id, N id → ∀ s ∈ c.straces id, (S id).ok s.injector.random

variable {N S T} {c c' : Cluster} {e : ClusterEnv} {files' : Files}

theorem alike_onShared {S : StreamPair} {s s' : Strace} (ha : AlikeStrace S T s s')
    {sh sh' : Shared} (hsh : T sh sh') : AlikeStrace S T (onShared s sh) (onShared s' sh') := by
  obtain ⟨s₁, tcbs⟩ := s
  obtain ⟨s₂, tcbs'⟩ := s'
  obtain ⟨⟨hr, -⟩, htcbs⟩ := ha
  exact ⟨.beside hr hsh, htcbs⟩

theorem alike_startStrace (hfiles : AlikeFiles N S e.config e.files files') {ni : NodeInfo}
    (hni : N ni.nodeId) {sh sh' : Shared} (hsh : T sh sh') :
    Option.Rel (AlikeStrace (S ni.nodeId) T) (startStrace e ni sh)
      (startStrace { e with files := files' } ni sh') := by
  have hstream := hfiles ni hni
  rw [startStrace, startStrace]
  generalize (launchOf e.config ni).stream e.files = o at hstream ⊢
  generalize (launchOf e.config ni).stream files' = o' at hstream ⊢
  cases hstream with
  | none => exact .none
  | some hr => exact .some ⟨.beside hr hsh, rfl⟩

/-- What happens to one node leaves the others as they are. -/
theorem alike_update (ha : AlikeCluster N S T c c') {id : UInt32} {o o' : Option Strace}
    (ho : N id → Option.Rel (AlikeStrace (S id) T) o o') :
    ∀ id', N id' → Option.Rel (AlikeStrace (S id') T) (Function.update c.straces id o id')
      (Function.update c'.straces id o' id') := by
  intro id' hN
  by_cases heq : id' = id
  · subst heq
    rw [Function.update_self, Function.update_self]
    exact ho hN
  · rw [Function.update_of_ne heq, Function.update_of_ne heq]
    exact ha.nodes id' hN

/-- **One input of the cluster.** -/
theorem alike_stepCluster (hT : Records T) (hout : ∀ id, ¬N id → ∀ sh sh', T sh sh')
    (hfiles : AlikeFiles N S e.config e.files files') (ha : AlikeCluster N S T c c')
    (i : ClusterInput) (hok : OkCluster N S (stepCluster e c i)) :
    AlikeCluster N S T (stepCluster e c i) (stepCluster { e with files := files' } c' i) := by
  cases i with
  | start ni =>
    exact ⟨alike_update ha fun hN => alike_startStrace hfiles hN ha.shared, ha.shared⟩
  | stop id => exact ⟨alike_update ha fun _ => .none, ha.shared⟩
  | input id i =>
    by_cases hN : N id
    · have hnode := ha.nodes id hN
      have hok' := hok id hN
      rw [stepCluster] at hok'
      rw [stepCluster, stepCluster]
      generalize hs : c.straces id = o at hnode hok' ⊢
      generalize hs' : c'.straces id = o' at hnode ⊢
      cases hnode with
      | none => exact ha
      | @some s s' hnode =>
        have hstep := alike_stepStrace hT (alike_onShared hnode ha.shared) e.injectorEnv i
          (hok' _ (Function.update_self ..))
        refine ⟨alike_update ha fun _ => .some hstep, ?_⟩
        exact hstep.injector.shared
    · -- the node is not compared, and neither is what it records
      obtain ⟨o, sh, heq⟩ := stepCluster_input e c id i
      obtain ⟨o', sh', heq'⟩ := stepCluster_input { e with files := files' } c' id i
      rw [heq, heq']
      exact ⟨alike_update ha fun h => absurd h hN, hout id hN sh sh'⟩

theorem alike_runCluster (hT : Records T) (hout : ∀ id, ¬N id → ∀ sh sh', T sh sh')
    (hfiles : AlikeFiles N S e.config e.files files') (ha : AlikeCluster N S T c c')
    (ins : List ClusterInput) (hok : Always (stepCluster e) (OkCluster N S) c ins) :
    AlikeCluster N S T (run (stepCluster e) c ins)
      (run (stepCluster { e with files := files' }) c' ins) := by
  -- both clusters take the same inputs; the condition is needed after each of them
  induction ins generalizing c c' with
  | nil => exact ha
  | cons i ins ih =>
    have hnext : OkCluster N S (stepCluster e c i) := by
      obtain ⟨-, hrest⟩ := hok
      cases ins with
      | nil => exact hrest
      | cons => exact hrest.1
    exact ih (alike_stepCluster hT hout hfiles ha i hnext) hok.2

end Alike

/-! ### Two test cases -/

/-- A node beyond those the test case was split for has no share. -/
theorem writePieces_beyond (content : List UInt8) {nodeCount i : Nat} (files : Files)
    (h : nodeCount ≤ i) :
    writePieces content nodeCount files (.randomNode i) = files (.randomNode i) := by
  -- there is a name for every node that the test case was split for, and no other
  have hmem : FileName.randomNode i ∉ writeFiles nodeCount := by
    rw [writeFiles, List.mem_cons, List.mem_map]
    rintro (hname | ⟨j, hj, hname⟩)
    · cases hname
    · obtain rfl := FileName.randomNode.inj hname
      exact absurd (List.mem_range.mp hj) (Nat.not_lt.mpr h)
  refine foldl_zipIdx_inv (fun _ (out : Files) => out (.randomNode i) = files (.randomNode i))
    (k := 0) rfl fun j written out hwritten hout => ?_
  have hne : FileName.randomNode i ≠ written := by
    rintro rfl
    exact hmem (List.mem_of_getElem? hwritten)
  rw [writePiece, Function.update_of_ne hne]
  exact hout

/-- Two disks with test cases that differ inside the share of node `i`, and the same
leftovers for nodes beyond those the test case is split for. -/
structure MutatedShare (nodeCount : Nat) (i : UInt32) (initialFile : FileName)
    (content content' : List UInt8) (files files' : Files) : Prop where
  node : i.toNat < nodeCount
  file : files initialFile = some content
  file' : files' initialFile = some content'
  differs : DiffersIn nodeCount (i.toNat + 1) content content'
  others : ∀ n, nodeCount ≤ n → files' (.randomNode n) = files (.randomNode n)

section Mutated

variable {nodeCount : Nat} {i : UInt32} {initialFile : FileName} {content content' : List UInt8}
variable {files files' : Files}

/-- The disk after `split_files`. -/
theorem splitFiles_out {r : RandomFile} {out : Files} {driver : RandomFile}
    (hfile : files initialFile = some content)
    (hsplit : splitFiles files initialFile nodeCount r = some (out, driver)) :
    out = writePieces content nodeCount files := by
  rw [splitFiles_eq hfile] at hsplit
  exact (Prod.mk.inj (Option.some.inj hsplit)).1.symm

/-- Every other node is started with the same stream. -/
theorem MutatedShare.stream_other
    (h : MutatedShare nodeCount i initialFile content content' files files') (cfg : NodeConfig)
    {ni : NodeInfo} (hne : ni.nodeId ≠ i) :
    (launchOf cfg ni).stream (writePieces content' nodeCount files') =
      (launchOf cfg ni).stream (writePieces content nodeCount files) := by
  rw [stream_launchOf, stream_launchOf]
  -- a node with a share has one that was cut at the same places, the others have the file that
  -- was there
  by_cases hlt : ni.nodeId.toNat < nodeCount
  · have hpiece : ni.nodeId.toNat + 1 ≠ i.toNat + 1 :=
      fun heq => hne (UInt32.toNat_inj.mp (Nat.succ_injective heq))
    rw [writePieces_randomNode content files hlt, writePieces_randomNode content' files' hlt,
      splitContent_congr h.differs hpiece]
  · have hge := Nat.le_of_not_lt hlt
    rw [writePieces_beyond content files hge, writePieces_beyond content' files' hge,
      h.others _ hge]

theorem MutatedShare.stream_self
    (h : MutatedShare nodeCount i initialFile content content' files files') (cfg : NodeConfig)
    {ni : NodeInfo} (heq : ni.nodeId = i) :
    (launchOf cfg ni).stream (writePieces content nodeCount files) =
        some (.load (splitContent content nodeCount (i.toNat + 1))) ∧
      (launchOf cfg ni).stream (writePieces content' nodeCount files') =
        some (.load (splitContent content' nodeCount (i.toNat + 1))) := by
  rw [stream_launchOf, stream_launchOf, heq, writePieces_randomNode content files h.node,
    writePieces_randomNode content' files' h.node]
  exact ⟨rfl, rfl⟩

/-- The shares agree where the test cases do. -/
theorem MutatedShare.agreeBefore
    (h : MutatedShare nodeCount i initialFile content content' files files')
    (hshort : content.length < 2 ^ 32) {k : Nat} (hk : k < averageLength content nodeCount)
    (hfront : ∀ p < averageLength content nodeCount * (i.toNat + 1) + k,
      content[p]? = content'[p]?) :
    StreamPair.AgreeBefore k (splitContent content nodeCount (i.toNat + 1))
      (splitContent content' nodeCount (i.toNat + 1)) := by
  have haverage : averageLength content' nodeCount = averageLength content nodeCount := by
    rw [averageLength, averageLength, h.differs.length_eq]
  have hlength := length_splitContent content (Nat.succ_le_of_lt h.node)
  have hlength' := length_splitContent content' (Nat.succ_le_of_lt h.node)
  rw [← averageLength_eq] at hlength hlength'
  -- the share is short because the test case is, and it is as long as the other one
  refine { short := ?_, inside := ?_, reaches := ?_, agree := ?_ }
  · rw [hlength, averageLength_eq]
    exact Nat.lt_of_le_of_lt (Nat.div_le_self ..) hshort
  · rwa [hlength]
  · rw [hlength', haverage]
    exact Nat.le_of_lt hk
  · intro p hp
    rw [splitContent, splitContent, haverage, List.getElem?_take, List.getElem?_take,
      List.getElem?_drop, List.getElem?_drop, if_pos (Nat.lt_trans hp hk),
      if_pos (Nat.lt_trans hp hk)]
    exact (hfront _ (Nat.add_lt_add_left hp _)).symm

end Mutated

/-! ### What a mutation can reach -/

/-- A strace process with another file under its stream. -/
def overFile (s : Strace) (file : List UInt8) : Strace :=
  { s with injector := { s.injector with
      random := { s.injector.random with fuzzFileArray := file } } }

/-- The cluster with another share for one node. -/
def Cluster.withShare (c : Cluster) (i : UInt32) (file : List UInt8) : Cluster :=
  { c with straces := Function.update c.straces i ((c.straces i).map (overFile · file)) }

theorem withShare_self (c : Cluster) (i : UInt32) (file : List UInt8) :
    (c.withShare i file).straces i = (c.straces i).map (overFile · file) :=
  Function.update_self ..

theorem withShare_other (c : Cluster) {i id : UInt32} (hne : id ≠ i) (file : List UInt8) :
    (c.withShare i file).straces id = c.straces id :=
  Function.update_of_ne hne ..

theorem eq_of_alike_same {s s' : Strace} (ha : AlikeStrace .same Eq s s') : s' = s := by
  obtain ⟨s₁, tcbs⟩ := s
  obtain ⟨s₂, tcbs'⟩ := s'
  obtain ⟨⟨hr, hsh⟩, htcbs⟩ := ha
  cases hr
  cases hsh
  cases htcbs
  rfl

theorem eq_of_alike_front {k : Nat} {file file' : List UInt8}
    {h : StreamPair.AgreeBefore k file file'} {s s' : Strace}
    (ha : AlikeStrace (.front h) Eq s s') : s' = overFile s file' := by
  obtain ⟨s₁, tcbs⟩ := s
  obtain ⟨s₂, tcbs'⟩ := s'
  obtain ⟨⟨hr, hsh⟩, htcbs⟩ := ha
  obtain ⟨-, rfl⟩ := hr
  cases hsh
  cases htcbs
  rfl

theorem onShared_of_alike {T : Shared → Shared → Prop} {s s' : Strace}
    (ha : AlikeStrace .same T s s') (seen : Shared) : onShared s' seen = onShared s seen := by
  obtain ⟨s₁, tcbs⟩ := s
  obtain ⟨s₂, tcbs'⟩ := s'
  obtain ⟨⟨hr, -⟩, htcbs⟩ := ha
  cases hr
  cases htcbs
  rfl

theorem map_of_rel {R : Strace → Strace → Prop} {o o' : Option Strace} (h : Option.Rel R o o')
    (f g : Strace → Strace) (hfg : ∀ {s s'}, R s s' → f s' = g s) : o'.map f = o.map g := by
  cases h with
  | none => rfl
  | some hs => rw [Option.map_some, Option.map_some, hfg hs]

/-- The node that was mutated is compared by the front of its share, every other node
exactly. -/
def sharePair (i : UInt32) {k : Nat} {file file' : List UInt8}
    (h : StreamPair.AgreeBefore k file file') (id : UInt32) : StreamPair :=
  if id = i then .front h else .same

section SharePair

variable {i : UInt32} {k : Nat} {file file' : List UInt8}
variable (h : StreamPair.AgreeBefore k file file')

theorem sharePair_self : sharePair i h i = .front h := if_pos rfl

theorem sharePair_other {id : UInt32} (hne : id ≠ i) : sharePair i h id = .same := if_neg hne

/-- Clusters that are alike in this way are one cluster over two shares. -/
theorem eq_withShare {c c' : Cluster}
    (ha : AlikeCluster (fun _ => True) (sharePair i h) Eq c c') : c' = c.withShare i file' := by
  obtain ⟨hnodes, hshared⟩ := ha
  have hstraces : c'.straces = (c.withShare i file').straces := by
    funext id
    have hnode := hnodes id trivial
    -- the node whose share differs has read only what is the same in both
    by_cases heq : id = i
    · subst heq
      rw [sharePair_self] at hnode
      rw [withShare_self]
      exact Option.map_id'.symm.trans (map_of_rel hnode _ _ eq_of_alike_front)
    · rw [sharePair_other h heq] at hnode
      rw [withShare_other c heq]
      exact Option.map_id'.symm.trans
        ((map_of_rel hnode _ (fun s => s) eq_of_alike_same).trans Option.map_id')
  cases c'
  cases hstraces
  cases hshared
  rfl

end SharePair

/-- **A mutation waits.** Let two test cases differ in the share of one node only, and
there not before byte `k` of the share. Whatever the nodes are made to do, for as long as
no process of that node has read byte `k`, the two clusters are the same but for the bytes
in that node's stream: every injector has taken the same decisions, every tracee is in the
same state, and the coverage is the same. A restarted node reads its share from the start,
so the bytes are counted for every process of it. -/
theorem mutation_waits {nodeCount : Nat} {i : UInt32} {initialFile : FileName}
    {content content' : List UInt8} {files files' : Files}
    (h : MutatedShare nodeCount i initialFile content content' files files')
    (hshort : content.length < 2 ^ 32) {k : Nat} (hk : k < averageLength content nodeCount)
    (hfront : ∀ p < averageLength content nodeCount * (i.toNat + 1) + k,
      content[p]? = content'[p]?)
    {r r' driver driver' : RandomFile} {out' : Files} (e : ClusterEnv)
    (hsplit : splitFiles files initialFile nodeCount r = some (e.files, driver))
    (hsplit' : splitFiles files' initialFile nodeCount r' = some (out', driver'))
    (sh : Shared) (ins : List ClusterInput)
    (hunread : Always (stepCluster e) (·.bytesRead i ≤ k) (.init sh) ins) :
    run (stepCluster { e with files := out' }) (.init sh) ins =
      (run (stepCluster e) (.init sh) ins).withShare i
        (splitContent content' nodeCount (i.toNat + 1)) := by
  have hagree := h.agreeBefore hshort hk hfront
  have hout := splitFiles_out h.file hsplit
  have hout' := splitFiles_out h.file' hsplit'
  -- each node is started with one stream, or with two that agree up to byte `k`
  have hfiles : AlikeFiles (fun _ => True) (sharePair i hagree) e.config e.files out' := by
    intro ni _
    rw [hout, hout']
    by_cases heq : ni.nodeId = i
    · obtain ⟨hself, hself'⟩ := h.stream_self e.config heq
      rw [hself, hself', heq, sharePair_self]
      exact .some ⟨rfl, rfl⟩
    · rw [sharePair_other hagree heq, h.stream_other e.config heq]
      cases (launchOf e.config ni).stream (writePieces content nodeCount files) with
      | none => exact .none
      | some r => exact .some rfl
  -- the condition is about that node alone
  have hok : Always (stepCluster e) (OkCluster (fun _ => True) (sharePair i hagree))
      (.init sh) ins := by
    refine always_iff.mpr fun pre post hins id _ s hs => ?_
    have hindex := always_iff.mp hunread pre post hins
    by_cases heq : id = i
    · subst heq
      rw [sharePair_self]
      intro _
      rwa [Cluster.bytesRead, hs] at hindex
    · rw [sharePair_other hagree heq]
      trivial
  have hstart : AlikeCluster (fun _ => True) (sharePair i hagree) Eq (.init sh) (.init sh) :=
    ⟨fun _ _ => .none, rfl⟩
  have hrecords : Records Eq := fun sh sh' p e heq => by rw [heq]
  exact eq_withShare hagree (alike_runCluster hrecords (fun _ hid => absurd trivial hid) hfiles
    hstart ins hok)

/-- Nine bytes, three for each of the driver and two nodes. -/
def nineBytes : List UInt8 := (List.range 9).map UInt8.ofNat

/-- The last byte of the share of node `0` is changed. -/
def nineBytesMutated : List UInt8 := nineBytes.set 5 200

/-- A disk with nothing but a test case. -/
def onlyTestCase (content : List UInt8) : Files := Function.update (fun _ => none) .random content

/-- What the harness finds after the split. -/
def afterSplit (content : List UInt8) : ClusterEnv where
  config := plainConfig
  injectorEnv := ⟨false, none⟩
  noReduction := false
  files := writePieces content 2 (onlyTestCase content)

/-- Two nodes, and two sends of the first that draw a byte each. -/
def twoNodesSending : List ClusterInput :=
  [.start ⟨0, true, 0, "", none⟩, .start ⟨1, true, 0, "", none⟩,
    .input 0 (.attach 7 ⟨false, false, false, false⟩), .input 0 (.syscallStop 7 socketSendStop),
    .input 0 (.syscallStop 7 socketSendStop), .input 0 (.syscallStop 7 socketSendStop)]

theorem nineBytes_mutated : MutatedShare 2 0 .random nineBytes nineBytesMutated
    (onlyTestCase nineBytes) (onlyTestCase nineBytesMutated) where
  node := by decide
  file := rfl
  file' := rfl
  differs := ⟨rfl, fun p hp => by
    rw [nineBytesMutated, List.getElem?_set_ne]
    rintro rfl
    revert hp
    decide⟩
  others _ _ := rfl

theorem mutation_waits_twoNodes :
    run (stepCluster (afterSplit nineBytesMutated)) (.init ⟨fun _ => 0, 0⟩) twoNodesSending =
      (run (stepCluster (afterSplit nineBytes)) (.init ⟨fun _ => 0, 0⟩) twoNodesSending).withShare
        0 [3, 4, 200] :=
  mutation_waits (k := 2) nineBytes_mutated (by decide) (by decide) (by decide)
    (afterSplit nineBytes) (splitFiles_eq (r := .load []) rfl 2)
    (splitFiles_eq (r := .load []) rfl 2) ⟨fun _ => 0, 0⟩ twoNodesSending
    ⟨by decide, by decide, by decide, by decide, by decide, by decide, by rw [Always]; decide⟩

/-- **A mutation stays.** Let two test cases differ in the share of one node only. Whatever
the nodes are made to do, and however early and often that node reads what differs, the
strace process of every other node is the same after it, up to the memory that all of them
share: the same part of its stream is read, the same faults are pending, its tracees are in
the same states. This needs nothing of the shared memory, not even at the start. -/
theorem mutation_stays {nodeCount : Nat} {i : UInt32} {initialFile : FileName}
    {content content' : List UInt8} {files files' : Files}
    (h : MutatedShare nodeCount i initialFile content content' files files')
    {r r' driver driver' : RandomFile} {out' : Files} (e : ClusterEnv)
    (hsplit : splitFiles files initialFile nodeCount r = some (e.files, driver))
    (hsplit' : splitFiles files' initialFile nodeCount r' = some (out', driver'))
    (sh sh' : Shared) (ins : List ClusterInput) {id : UInt32} (hid : id ≠ i) (seen : Shared) :
    ((run (stepCluster { e with files := out' }) (.init sh') ins).straces id).map
        (onShared · seen) =
      ((run (stepCluster e) (.init sh) ins).straces id).map (onShared · seen) := by
  have hout := splitFiles_out h.file hsplit
  have hout' := splitFiles_out h.file' hsplit'
  have hfiles : AlikeFiles (· ≠ i) (fun _ => .same) e.config e.files out' := by
    intro ni hne
    rw [hout, hout', h.stream_other e.config hne]
    cases (launchOf e.config ni).stream (writePieces content nodeCount files) with
    | none => exact .none
    | some r => exact .some rfl
  have hok : Always (stepCluster e) (OkCluster (· ≠ i) fun _ => .same) (.init sh) ins :=
    always_iff.mpr fun _ _ _ _ _ _ _ => trivial
  -- nothing is asked of the shared memory, so every pair of them is related
  have hstart : AlikeCluster (· ≠ i) (fun _ => .same) (fun _ _ => True) (.init sh) (.init sh') :=
    ⟨fun _ _ => .none, trivial⟩
  have hrun := alike_runCluster (fun _ _ _ _ _ => trivial) (fun _ _ _ _ => trivial) hfiles hstart
    ins hok
  exact map_of_rel (hrun.nodes id hid) _ _ fun ha => onShared_of_alike ha seen

/-- Node `0` reads the byte that was changed, and then node `1` sends. -/
def bothNodesSending : List ClusterInput :=
  twoNodesSending ++
    [.input 1 (.attach 8 ⟨false, false, false, false⟩), .input 0 (.syscallStop 7 socketSendStop),
      .input 0 (.syscallStop 7 socketSendStop), .input 1 (.syscallStop 8 socketSendStop)]

theorem mutation_stays_bothNodes :
    ((run (stepCluster (afterSplit nineBytesMutated)) (.init ⟨fun _ => 0, 0⟩)
        bothNodesSending).straces 1).map (onShared · ⟨fun _ => 0, 0⟩) =
      ((run (stepCluster (afterSplit nineBytes)) (.init ⟨fun _ => 0, 0⟩)
        bothNodesSending).straces 1).map (onShared · ⟨fun _ => 0, 0⟩) :=
  mutation_stays nineBytes_mutated (afterSplit nineBytes) (splitFiles_eq (r := .load []) rfl 2)
    (splitFiles_eq (r := .load []) rfl 2) _ _ _ (by decide) _

end DistFuzz.Harness
