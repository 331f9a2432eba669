import DistFuzz.Harness.NodeManager

/-!
# Graceful stops
(dqlite_test/include/dqlite_node_manager.hpp, c-raft_test/include/craft_node_manager.hpp,
their operators GraceRandomKill, core/include/dst_node_manager.hpp)

Two node managers can stop a node gracefully: they send it `SIGTERM`, wait for at
most 200 ms, and count it as stopped from then on, whether its process has exited
or not. `stop_node`, which `RandomKill` uses, always ends the process. `check`
takes a process that runs although its node is stopped for a bug.

How long a process takes to exit after `SIGTERM` is an input of the operator.
Between operators any process may end, by itself or late.

- `graceStopNode`, `graceRandomKill`: the two functions, the same in both managers.
- `GraceInv`: no stopped node has a running process (`graceInv_step`).
- `CheckSound`, `GraceStops`: what the harness relies on; `ExitsInTime`: when it
  may, by `grace_stop_iff`.
-/

namespace DistFuzz.Harness

open DistFuzz.Lib

/-! ## The operators -/

/-- What `wait_for` waits at most, in milliseconds. -/
def graceMs : Nat := 200

/-- `kill(id(), SIGTERM)`, then `wait_for(200 ms)`, for a child that takes
`exitMs` milliseconds to exit. -/
def Child.killWaitFor (c : Child) (exitMs : Nat) : Child :=
  ⟨c.running && decide (graceMs < exitMs)⟩

/-- `grace_stop_node`. -/
def graceStopNode (nm : NodeManager) (i : UInt32) (exitMs : Nat) : Option (Bool × NodeManager) :=
  if i > nm.nodeCount - 1 then some (false, nm)
  else
    match nm.nodeProcesses[i.toNat]? with
    | none => none
    | some ni =>
      if !ni.shouldAlive then some (true, nm)
      else
        ni.process.map fun c =>
          (true,
            { nm with
              nodeProcesses :=
                nm.nodeProcesses.set i.toNat
                  { ni with process := some (c.killWaitFor exitMs), shouldAlive := false } })

/-- `GraceRandomKill::_do`. -/
def graceRandomKill (nm : NodeManager) (b : UInt8) (exitMs : Nat) :
    Option (Bool × NodeManager) :=
  match pickNode (·.shouldAlive) nm b with
  | none => some (true, nm)
  | some ni => graceStopNode nm ni.nodeId exitMs

/-- The entry of a node whose process has ended. -/
def NodeInfo.exited (ni : NodeInfo) : NodeInfo :=
  { ni with process := ni.process.map fun _ => ⟨false⟩ }

/-- An operator, with the random byte it reads and the time the process takes to
exit; or the process at a position ends. -/
inductive GraceOp where
  | graceRandomKill (b : UInt8) (exitMs : Nat)
  | randomKill (b : UInt8)
  | randomStart (b : UInt8)
  | processExits (i : Nat)
deriving DecidableEq, Repr

/-- `_do`. -/
def doGraceOp (cfg : NodeConfig) (nm : NodeManager) : GraceOp → Option (Bool × NodeManager)
  | .graceRandomKill b exitMs => graceRandomKill nm b exitMs
  | .randomKill b => randomKill cfg nm b
  | .randomStart b => randomStart cfg nm b
  | .processExits i =>
    some (true, { nm with nodeProcesses := nm.nodeProcesses.modify i NodeInfo.exited })

/-- The manager after an operator, `none` once it went wrong. -/
def stepGrace (cfg : NodeConfig) (s : Option NodeManager) (op : GraceOp) : Option NodeManager :=
  s.bind fun nm => (doGraceOp cfg nm op).map (·.2)

/-! ## What the harness relies on -/

/-- A node that should be alive has terminated. -/
def NodeTerminated (nm : NodeManager) : Prop :=
  ∃ ni ∈ nm.nodeProcesses, ni.shouldAlive = true ∧
    ∃ c, ni.process = some c ∧ c.running = false

/-- `check` gives a verdict, and `false` only over a node that should be alive and
has terminated. -/
def CheckSound (s : Option NodeManager) : Prop :=
  ∃ nm ok, s = some nm ∧ check nm.nodeProcesses = some ok ∧ (ok = false → NodeTerminated nm)

/-- When the `grace_stop_node` of the operator returns `true`, the process of the
node is not running. -/
def GraceStops (s : Option NodeManager) (op : GraceOp) : Prop :=
  ∀ nm b exitMs ni nm', s = some nm → op = .graceRandomKill b exitMs →
    pickNode (·.shouldAlive) nm b = some ni →
    graceStopNode nm ni.nodeId exitMs = some (true, nm') →
    ∃ ni' c, nm'.nodeProcesses[ni.nodeId.toNat]? = some ni' ∧ ni'.process = some c ∧
      c.running = false

/-- The process that gets `SIGTERM`, if it still runs then, exits before the wait
is over. -/
def ExitsInTime (s : Option NodeManager) (op : GraceOp) : Prop :=
  ∀ nm b exitMs ni c, s = some nm → op = .graceRandomKill b exitMs →
    pickNode (·.shouldAlive) nm b = some ni → ni.process = some c → c.running = true →
    exitMs ≤ graceMs

/-! ## The invariant -/

/-- The entry at position `i` is for the node with that id, and its process, if it
runs, belongs to a node that should be alive. -/
structure GraceNode (i : Nat) (ni : NodeInfo) : Prop where
  id : ni.nodeId.toNat = i
  process : ∃ c, ni.process = some c ∧ (c.running = true → ni.shouldAlive = true)

structure GraceInv (nm : NodeManager) : Prop where
  size : nm.nodeProcesses.length = nm.nodeCount.toNat
  nodes : ∀ i ni, nm.nodeProcesses[i]? = some ni → GraceNode i ni

theorem Sound.graceInv {nm : NodeManager} (h : Sound nm none) : GraceInv nm where
  size := h.size
  nodes _ _ hi := ⟨(h.node hi).id, _, (h.node hi).process, id⟩

/-- Replacing the entry of a node. -/
theorem GraceInv.set {nm : NodeManager} (h : GraceInv nm) {i : Nat} {ni : NodeInfo}
    (hni : GraceNode i ni) (launches : List Launch) :
    GraceInv { nm with nodeProcesses := nm.nodeProcesses.set i ni, launches := launches } where
  size := (List.length_set ..).trans h.size
  nodes := forall_getElem?_set (fun j nj hj _ => h.nodes j nj hj) hni

/-- With a process at every entry, `check` compares each with what it should be. -/
theorem check_eq_all : ∀ {nodes : List NodeInfo},
    (∀ ni ∈ nodes, ∃ c, ni.process = some c) →
    check nodes = some (nodes.all fun ni => ni.process.any (·.running == ni.shouldAlive))
  | [], _ => rfl
  | ni :: rest, h => by
    obtain ⟨c, hc⟩ := h ni List.mem_cons_self
    have hrest := check_eq_all fun ni' hni' => h ni' (List.mem_cons_of_mem _ hni')
    unfold check
    rw [hc, hrest, List.all_cons, hc]
    cases hr : c.running <;> cases ha : ni.shouldAlive <;> simp [hr]

/-- **The check** of a manager that keeps the invariant. -/
theorem GraceInv.checkSound {nm : NodeManager} (h : GraceInv nm) : CheckSound (some nm) := by
  have hnode : ∀ ni ∈ nm.nodeProcesses, ∃ i, GraceNode i ni := by
    intro ni hni
    obtain ⟨i, hi⟩ := List.mem_iff_getElem?.mp hni
    exact ⟨i, h.nodes i ni hi⟩
  have hproc : ∀ ni ∈ nm.nodeProcesses, ∃ c, ni.process = some c := by
    intro ni hni
    obtain ⟨i, -, c, hc, -⟩ := hnode ni hni
    exact ⟨c, hc⟩
  refine ⟨nm, _, rfl, check_eq_all hproc, fun hfalse => ?_⟩
  obtain ⟨ni, hni, hdiff⟩ := List.all_eq_false.mp hfalse
  obtain ⟨i, -, c, hc, hrun⟩ := hnode ni hni
  rw [hc, Option.any_some, beq_iff_eq] at hdiff
  -- a running process is one that should run, so this one has ended
  cases hr : c.running with
  | true => exact absurd (hr.trans (hrun hr).symm) hdiff
  | false =>
    refine ⟨ni, hni, ?_, c, hc, hr⟩
    rw [hr] at hdiff
    exact Bool.eq_true_of_not_eq_false (Ne.symm hdiff)

/-- `grace_stop_node` at an alive node whose id is its position. -/
theorem graceStopNode_eq {nm : NodeManager} (h : GraceInv nm) {i : Nat} {ni : NodeInfo}
    (hi : nm.nodeProcesses[i]? = some ni) (halive : ni.shouldAlive = true) {c : Child}
    (hc : ni.process = some c) (exitMs : Nat) :
    graceStopNode nm ni.nodeId exitMs = some (true, { nm with
      nodeProcesses := nm.nodeProcesses.set i
        { ni with process := some (c.killWaitFor exitMs), shouldAlive := false } }) := by
  have hid := (h.nodes i ni hi).id
  have hlt : ni.nodeId.toNat < nm.nodeProcesses.length :=
    hid ▸ (List.getElem?_eq_some_iff.mp hi).1
  unfold graceStopNode
  rw [if_neg (nodeId_in_range h.size hlt), hid, hi]
  dsimp only
  rw [halive, hc, Bool.not_true, if_neg (by decide), Option.map_some]

/-- The child is gone exactly if it was already or exits in time. -/
theorem killWaitFor_running_eq_false {c : Child} {exitMs : Nat} :
    (c.killWaitFor exitMs).running = false ↔ (c.running = true → exitMs ≤ graceMs) := by
  show (c.running && decide (graceMs < exitMs)) = false ↔ _
  cases c.running with
  | false => simp
  | true => simp

/-- **A graceful stop** does what it says exactly if the process exits in time. -/
theorem graceStops_iff {s : Option NodeManager} (hs : ∃ nm, s = some nm ∧ GraceInv nm)
    (op : GraceOp) : GraceStops s op ↔ ExitsInTime s op := by
  obtain ⟨nm, rfl, h⟩ := hs
  -- both are about the one call that picks an alive node
  have hcall : ∀ (exitMs : Nat) {b : UInt8} {ni : NodeInfo},
      pickNode (·.shouldAlive) nm b = some ni → ∃ i c nm' ni',
        ni.nodeId.toNat = i ∧ ni.process = some c ∧
        graceStopNode nm ni.nodeId exitMs = some (true, nm') ∧
        nm'.nodeProcesses[i]? = some ni' ∧ ni'.process = some (c.killWaitFor exitMs) := by
    intro exitMs b ni hpick
    rcases pickNode_cases (·.shouldAlive) nm b with ⟨hnone, -⟩ | ⟨i, ni', hpick', hi, halive⟩
    · rw [hnone] at hpick
      cases hpick
    · obtain rfl := Option.some.inj (hpick.symm.trans hpick')
      obtain ⟨hid, c, hc, -⟩ := h.nodes i ni hi
      have hlt : i < nm.nodeProcesses.length := (List.getElem?_eq_some_iff.mp hi).1
      exact ⟨i, c, _, _, hid, hc, graceStopNode_eq h hi halive hc exitMs,
        List.getElem?_set_self hlt, rfl⟩
  constructor
  · intro hstops nm₁ b exitMs ni c heq hop hpick hc hrun
    obtain rfl := Option.some.inj heq
    obtain ⟨i, c', nm', ni', hid, hc', hdo, hget, hproc⟩ := hcall exitMs hpick
    obtain rfl := Option.some.inj (hc.symm.trans hc')
    obtain ⟨ni'', c'', hget', hproc', hstopped⟩ := hstops nm b exitMs ni nm' rfl hop hpick hdo
    rw [hid, hget] at hget'
    obtain rfl := Option.some.inj hget'
    obtain rfl := Option.some.inj (hproc.symm.trans hproc')
    exact killWaitFor_running_eq_false.mp hstopped hrun
  · intro htime nm₁ b exitMs ni nm'' heq hop hpick hdo'
    obtain rfl := Option.some.inj heq
    obtain ⟨i, c, nm', ni', hid, hc, hdo, hget, hproc⟩ := hcall exitMs hpick
    obtain ⟨-, rfl⟩ := Prod.mk.inj (Option.some.inj (hdo.symm.trans hdo'))
    refine ⟨ni', _, hid ▸ hget, hproc, killWaitFor_running_eq_false.mpr fun hrun => ?_⟩
    exact htime nm b exitMs ni c rfl hop hpick hc hrun

/-- An operator that acts on the node it picks, if any, keeps the invariant if the
new entry does. -/
theorem graceInv_pick (p : NodeInfo → Bool) {nm : NodeManager} (b : UInt8)
    {did : Option (Bool × NodeManager)} (h : GraceInv nm)
    (hnone : pickNode p nm b = none → did = some (true, nm))
    (hsome : ∀ (i : Nat) (ni : NodeInfo), pickNode p nm b = some ni →
      nm.nodeProcesses[i]? = some ni → p ni = true →
      ∃ nm', did = some (true, nm') ∧ GraceInv nm') :
    ∃ nm', did.map (·.2) = some nm' ∧ GraceInv nm' := by
  rcases pickNode_cases p nm b with ⟨hpick, -⟩ | ⟨i, ni, hpick, hi, hp⟩
  · exact ⟨nm, by rw [hnone hpick]; rfl, h⟩
  · obtain ⟨nm', hdid, hinv⟩ := hsome i ni hpick hi hp
    exact ⟨nm', by rw [hdid]; rfl, hinv⟩

/-- **One step** keeps the invariant, if a process that gets `SIGTERM` exits in
time. -/
theorem graceInv_step (cfg : NodeConfig) {s : Option NodeManager}
    (hs : ∃ nm, s = some nm ∧ GraceInv nm) (op : GraceOp) (hok : ExitsInTime s op) :
    ∃ nm', stepGrace cfg s op = some nm' ∧ GraceInv nm' := by
  obtain ⟨nm, rfl, h⟩ := hs
  show ∃ nm', (doGraceOp cfg nm op).map (·.2) = some nm' ∧ GraceInv nm'
  cases op with
  | graceRandomKill b exitMs =>
    refine graceInv_pick (·.shouldAlive) b h (fun hpick => ?_) fun i ni hpick hi halive => ?_
    · rw [doGraceOp, graceRandomKill, hpick]
    · obtain ⟨hid, c, hc, -⟩ := h.nodes i ni hi
      have hdo : doGraceOp cfg nm (.graceRandomKill b exitMs)
          = graceStopNode nm ni.nodeId exitMs := by
        rw [doGraceOp, graceRandomKill, hpick]
      refine ⟨_, hdo.trans (graceStopNode_eq h hi halive hc exitMs), h.set ?_ nm.launches⟩
      refine ⟨hid, _, rfl, fun hrun => ?_⟩
      have hstopped := killWaitFor_running_eq_false.mpr
        fun hrunning => hok nm b exitMs ni c rfl rfl hpick hc hrunning
      rw [hstopped] at hrun
      cases hrun
  | randomKill b =>
    refine graceInv_pick (·.shouldAlive) b h (fun hpick => ?_) fun i ni hpick hi halive => ?_
    · rw [doGraceOp, randomKill, hpick]
    · obtain ⟨hid, c, hc, -⟩ := h.nodes i ni hi
      have hdo : doGraceOp cfg nm (.randomKill b) = stopNode cfg nm ni.nodeId := by
        rw [doGraceOp, randomKill, hpick]
      refine ⟨_, hdo.trans (stopNode_eq cfg h.size hi hid halive hc), h.set ?_ nm.launches⟩
      exact ⟨hid, _, rfl, fun hrun => by cases hrun⟩
  | randomStart b =>
    refine graceInv_pick (!·.shouldAlive) b h (fun hpick => ?_) fun i ni hpick hi hstopped => ?_
    · rw [doGraceOp, randomStart, hpick]
    · have hid := (h.nodes i ni hi).id
      have hdo : doGraceOp cfg nm (.randomStart b) = startNode cfg nm ni.nodeId := by
        rw [doGraceOp, randomStart, hpick]
      have hstopped' : ni.shouldAlive = false := by simpa using hstopped
      refine ⟨_, hdo.trans (startNode_eq cfg h.size hi hid hstopped'), h.set ?_ _⟩
      exact ⟨hid, _, rfl, fun _ => rfl⟩
  | processExits i =>
    refine ⟨_, rfl, (List.length_modify ..).trans h.size, fun j nj hj => ?_⟩
    rw [List.getElem?_modify] at hj
    obtain ⟨nj₀, hj₀, rfl⟩ := Option.map_eq_some_iff.mp hj
    obtain ⟨hid, c, hc, hrun⟩ := h.nodes j nj₀ hj₀
    split
    · exact ⟨hid, ⟨false⟩, by simp [NodeInfo.exited, hc], fun hr => by cases hr⟩
    · exact ⟨hid, c, hc, hrun⟩

/-! ## Runs -/

/-- **Graceful stops**: after `start_all` with any number of nodes, along every
sequence of operators and ends of processes, `check` returns `false` only over a
node that should be alive and has terminated and every successful graceful stop
leaves the process stopped, if and only if every process that gets `SIGTERM` exits
within the 200 ms that are waited. -/
theorem grace_stop_iff (cfg : NodeConfig) (n : UInt32) (ops : List GraceOp) :
    ∃ nm, startAll cfg (.new n) = some (true, nm) ∧
      ((Always (stepGrace cfg) CheckSound (some nm) ops ∧
          Steps (stepGrace cfg) GraceStops (some nm) ops)
        ↔ Steps (stepGrace cfg) ExitsInTime (some nm) ops) := by
  obtain ⟨nm, hstart, hsound, -⟩ := sound_startAll cfg n
  have hinit : ∃ nm', some nm = some nm' ∧ GraceInv nm' := ⟨nm, rfl, hsound.graceInv⟩
  have hsteps : Steps (stepGrace cfg) GraceStops (some nm) ops
      ↔ Steps (stepGrace cfg) ExitsInTime (some nm) ops :=
    steps_congr (fun s => ∃ nm, s = some nm ∧ GraceInv nm)
      (fun _ op hs => graceStops_iff hs op)
      (fun _ op hs hok => graceInv_step cfg hs op ((graceStops_iff hs op).mp hok)) hinit
  refine ⟨nm, hstart, fun h => hsteps.mp h.2, fun h => ⟨?_, hsteps.mpr h⟩⟩
  refine always_of_inv (fun s => ∃ nm, s = some nm ∧ GraceInv nm)
    (fun _ op hs hok => graceInv_step cfg hs op hok) ?_ hinit h
  rintro s ⟨nm', rfl, hinv⟩
  exact hinv.checkSound

/-- Three nodes, one of which takes 300 ms to shut down: `check` reports it,
although every node that should be alive is. -/
theorem slowShutdown_reported :
    ∃ nm nm', startAll plainConfig (.new 3) = some (true, nm) ∧
      run (stepGrace plainConfig) (some nm) [.graceRandomKill 1 300] = some nm' ∧
      check nm'.nodeProcesses = some false ∧ ¬NodeTerminated nm' := by
  refine ⟨_, _, rfl, rfl, rfl, ?_⟩
  rintro ⟨ni, hni, halive, c, hc, hstopped⟩
  have hrunning := (List.all_eq_true (p := fun ni => ni.process.all (·.running))).mp rfl ni hni
  rw [hc, Option.all_some, hstopped] at hrunning
  cases hrunning

end DistFuzz.Harness
