import DistFuzz.Fuzzer.Interesting
import DistFuzz.Lib.Runs

/-!
# Executing a case (TestRunning.cpp:93–101, 103–114, 200–299)

`ExecuteCase` forks the target, sets a timer and waits. The handler of the timer's signal
kills whatever process has the number `child_pid`, and says so in `child_timed_out`; from
this and from the status that `waitpid` gives the call makes its verdict. The handler can
run between any two steps of the call, and the number of a process is free for another one
once it has been waited for. (`no_forkserver` is `1` and nothing assigns it.)

The model has the points of the call at which something else can come in between, the
processes of the system, and the timer. Processes carry a serial number beside their `pid`,
so that it can be said which one was killed.

- `Executor`, `stepExecutor`: the call, the handler and the kernel, in any order.
- `ExecInv`: what holds at each point; `execInv_step`.
- `verdict_due_iff`: the verdict is the right one, unless the target was killed by somebody
  else and the timer went off before `child_pid` was cleared.
- `kills_child_iff`: the handler kills the child of the call, unless that was waited for
  already.
- `case_ends`: no target keeps the fuzzer waiting.
-/

namespace DistFuzz.Fuzzer

open DistFuzz.Lib

/-! ## Processes -/

/-- `status` of `waitpid`, of a process that has ended. -/
inductive WaitStatus where
  | exited (code : UInt8)
  | signaled (sig : Nat)
deriving DecidableEq, Repr

def sigkill : Nat := 9

/-- How a process ended, and whether `HandleTimeout` ended it. -/
structure Death where
  status : WaitStatus
  byHandler : Bool
deriving DecidableEq, Repr

/-- A process. One that has ended stays until its parent has waited for it; those that are
not ours are taken to be waited for at once. -/
structure Process where
  serial : Nat
  ours : Bool
  death : Option Death
deriving DecidableEq, Repr

/-- Where `ExecuteCase` is: not called; before `setitimer`; before or in `waitpid`; before
`child_pid = 0`; before the second `setitimer`; before the verdict; or in `exit(-1)`. -/
inductive ExecPhase where
  | idle
  | forked (timeout : UInt32)
  | waiting (timeout : UInt32)
  | reaped (d : Death)
  | cleared (d : Death)
  | disarmed (d : Death)
  | failed
deriving DecidableEq, Repr

/-- An execution that is over: its child, how that ended, `child_timed_out`, and what the
call returned. -/
structure Executed where
  child : Nat
  death : Death
  timedOut : Bool
  verdict : RunStatus
deriving DecidableEq, Repr

/-- A signal that the handler sent: the process it went to, if there was one, the child of
the current call, and whether this had been waited for. -/
structure Kill where
  victim : Option Nat
  child : Nat
  afterWait : Bool
deriving DecidableEq, Repr

/-- The fuzzer's globals for executions, the timer, the processes of the system, and a
record of what was done. `child` is the serial number of the last child. -/
structure Executor where
  phase : ExecPhase
  childPid : Nat
  childTimedOut : Bool
  timerArmed : Bool
  procs : Nat → Option Process
  nextSerial : Nat
  child : Nat
  executions : List Executed
  kills : List Kill

/-! ## The code -/

/-- What `ExecuteCase` returns. -/
def runVerdict (childTimedOut : Bool) : WaitStatus → RunStatus
  | .signaled sig => if childTimedOut ∧ sig = sigkill then .tmout else .crash
  | .exited _ => .none

/-- A process is to end. One that has ended does not end again. -/
def Process.endBy (d : Death) (p : Process) : Option Process :=
  match p.death with
  | some _ => some p
  | none => if p.ours then some { p with death := some d } else none

/-- The process with this number, if there is one, ends. -/
def endProcess (procs : Nat → Option Process) (pid : Nat) (d : Death) : Nat → Option Process :=
  Function.update procs pid ((procs pid).bind (Process.endBy d))

/-- The child has been waited for, and `child_pid` not been cleared. -/
def ExecPhase.afterWait : ExecPhase → Bool
  | .reaped _ => true
  | _ => false

/-- `HandleTimeout`. -/
def handleTimeout (s : Executor) : Executor :=
  if 0 < s.childPid then
    { s with
      childTimedOut := true
      procs := endProcess s.procs s.childPid ⟨.signaled sigkill, true⟩
      kills := s.kills ++
        [⟨(s.procs s.childPid).map Process.serial, s.child, s.phase.afterWait⟩] }
  else s

/-- `ExecuteCase` up to its `fork`, which gives `pid`, or fails. -/
def callExecuteCase (s : Executor) (pid : Option Nat) (timeout : UInt32) : Executor :=
  match pid with
  | none => { s with childTimedOut := false, phase := .failed }
  | some pid =>
    -- the kernel gives no number that is in use
    if 0 < pid ∧ s.procs pid = none then
      { s with
        childTimedOut := false
        procs := Function.update s.procs pid (some ⟨s.nextSerial, true, none⟩)
        nextSerial := s.nextSerial + 1
        childPid := pid
        child := s.nextSerial
        phase := .forked timeout }
    else s

/-- `waitpid`, which blocks as long as the child runs. -/
def waitChild (s : Executor) : Executor :=
  match s.procs s.childPid with
  | none => { s with phase := .failed }
  | some p =>
    if p.ours then
      match p.death with
      | none => s
      | some d => { s with phase := .reaped d, procs := Function.update s.procs s.childPid none }
    else { s with phase := .failed }

/-- The call goes on to its next point. -/
def Executor.proceed (s : Executor) : Executor :=
  match s.phase with
  | .idle => s
  -- a value of zero disarms the timer
  | .forked timeout => { s with timerArmed := timeout != 0, phase := .waiting timeout }
  | .waiting _ => waitChild s
  | .reaped d => { s with childPid := 0, phase := .cleared d }
  | .cleared d => { s with timerArmed := false, phase := .disarmed d }
  | .disarmed d =>
    { s with
      phase := .idle
      executions := s.executions ++
        [⟨s.child, d, s.childTimedOut, runVerdict s.childTimedOut d.status⟩] }
  | .failed => s

/-- What can happen: a call, a step of the call, the timer goes off, a process ends by itself
or by what others do to it, or somebody else creates one. -/
inductive ExecInput where
  | call (pid : Option Nat) (timeout : UInt32)
  | proceed
  | alarm
  | ends (pid : Nat) (status : WaitStatus)
  | spawns (pid : Nat)

def stepExecutor (s : Executor) : ExecInput → Executor
  | .call pid timeout => if s.phase = .idle then callExecuteCase s pid timeout else s
  | .proceed => s.proceed
  -- the interval is zero, so that the timer goes off once
  | .alarm => if s.timerArmed then handleTimeout { s with timerArmed := false } else s
  | .ends pid status => { s with procs := endProcess s.procs pid ⟨status, false⟩ }
  | .spawns pid =>
    if 0 < pid ∧ s.procs pid = none then
      { s with
        procs := Function.update s.procs pid (some ⟨s.nextSerial, false, none⟩)
        nextSerial := s.nextSerial + 1 }
    else s

/-- Before the first call. -/
def Executor.init : Executor := ⟨.idle, 0, false, false, fun _ => none, 0, 0, [], []⟩

/-! ## The invariant -/

/-- What is known of the child's death when the call makes its verdict. -/
def DeathOk (timedOut : Bool) (d : Death) : Prop :=
  d.byHandler = true → timedOut = true ∧ d.status = .signaled sigkill

/-- The process with the number `child_pid` is the child of the call. -/
structure HoldsChild (procs : Nat → Option Process) (childPid child : Nat) (p : Process) :
    Prop where
  positive : 0 < childPid
  found : procs childPid = some p
  serial : p.serial = child
  ours : p.ours = true

/-- What holds at each point of the call. -/
def PhaseOk (s : Executor) : ExecPhase → Prop
  | .idle => s.childPid = 0 ∧ s.timerArmed = false
  | .forked _ => s.timerArmed = false ∧ ∃ p, HoldsChild s.procs s.childPid s.child p ∧
      ∀ d, p.death = some d → DeathOk s.childTimedOut d
  | .waiting timeout => ∃ p, HoldsChild s.procs s.childPid s.child p ∧
      (∀ d, p.death = some d → DeathOk s.childTimedOut d) ∧
      -- a child that runs on is still to be killed
      (p.death = none → timeout ≠ 0 → s.timerArmed = true)
  | .reaped d => DeathOk s.childTimedOut d ∧ 0 < s.childPid ∧ s.child < s.nextSerial ∧
      ∀ pid p, s.procs pid = some p → p.serial ≠ s.child
  | .cleared d => DeathOk s.childTimedOut d ∧ s.childPid = 0
  | .disarmed d => DeathOk s.childTimedOut d ∧ s.childPid = 0 ∧ s.timerArmed = false
  | .failed => s.timerArmed = false

/-- What the record says of an execution. -/
def Executed.Ok (f : Executed) : Prop :=
  DeathOk f.timedOut f.death ∧ f.verdict = runVerdict f.timedOut f.death.status

/-- A signal hit the child of the call, or came after `waitpid`. -/
def Kill.Ok (k : Kill) : Prop :=
  if k.afterWait then k.victim ≠ some k.child else k.victim = some k.child

/-- Serial numbers are given once, so that a process is told apart from a later one that has its
`pid`. -/
structure ProcsOk (procs : Nat → Option Process) (nextSerial : Nat) : Prop where
  below : ∀ pid p, procs pid = some p → p.serial < nextSerial
  distinct : ∀ pid p pid' p', procs pid = some p → procs pid' = some p' →
    p.serial = p'.serial → pid = pid'

structure ExecInv (s : Executor) : Prop where
  phase : PhaseOk s s.phase
  procs : ProcsOk s.procs s.nextSerial
  executions : ∀ f ∈ s.executions, f.Ok
  kills : ∀ k ∈ s.kills, k.Ok

/-! ## Processes come and go -/

section Processes

variable {procs : Nat → Option Process} {next pid : Nat} {p : Process} {d : Death}

theorem endBy_cases {p' : Process} (h : p.endBy d = some p') :
    p'.serial = p.serial ∧ p'.ours = p.ours ∧
      (p'.death = p.death ∨ (p.death = none ∧ p'.death = some d)) := by
  unfold Process.endBy at h
  split at h
  · cases h
    exact ⟨rfl, rfl, .inl rfl⟩
  · next hruns =>
    split at h
    · cases h
      exact ⟨rfl, rfl, .inr ⟨hruns, rfl⟩⟩
    · exact absurd h (by simp)

theorem endBy_dead {p' : Process} (h : p.endBy d = some p') : p'.death ≠ none := by
  unfold Process.endBy at h
  split at h
  · next d' hd' =>
    cases h
    rw [hd']
    exact Option.some_ne_none d'
  · split at h
    · cases h
      exact Option.some_ne_none d
    · exact absurd h (by simp)

/-- Our own processes stay until they are waited for. -/
theorem endBy_ours (hours : p.ours = true) : ∃ p', p.endBy d = some p' := by
  unfold Process.endBy
  split
  · exact ⟨p, rfl⟩
  · rw [if_pos hours]
    exact ⟨_, rfl⟩

/-- What is there after a process ended was there before, and at most one is dead now that
was not. -/
theorem endProcess_some {pid' : Nat} {p' : Process} (h : endProcess procs pid d pid' = some p') :
    ∃ p, procs pid' = some p ∧ p'.serial = p.serial ∧ p'.ours = p.ours ∧
      (p'.death = p.death ∨ (pid' = pid ∧ p.death = none ∧ p'.death = some d)) := by
  unfold endProcess at h
  by_cases heq : pid' = pid
  · subst heq
    rw [Function.update_self, Option.bind_eq_some_iff] at h
    obtain ⟨p, hp, hend⟩ := h
    obtain ⟨hserial, hours, hdeath⟩ := endBy_cases hend
    exact ⟨p, hp, hserial, hours, hdeath.imp_right fun hd => ⟨rfl, hd⟩⟩
  · rw [Function.update_of_ne heq] at h
    exact ⟨p', h, rfl, rfl, .inl rfl⟩

theorem endProcess_ours (pid : Nat) (d : Death) {pid' : Nat} (hp : procs pid' = some p)
    (hours : p.ours = true) :
    ∃ p', endProcess procs pid d pid' = some p' ∧ p'.serial = p.serial ∧ p'.ours = true ∧
      (p'.death = p.death ∨ (pid' = pid ∧ p.death = none ∧ p'.death = some d)) := by
  have hsome : ∃ p', endProcess procs pid d pid' = some p' := by
    unfold endProcess
    by_cases heq : pid' = pid
    · subst heq
      rw [Function.update_self, hp, Option.bind_some]
      exact endBy_ours hours
    · rw [Function.update_of_ne heq]
      exact ⟨p, hp⟩
  obtain ⟨p', hp'⟩ := hsome
  obtain ⟨q, hq, hserial, hours', hdeath⟩ := endProcess_some hp'
  obtain rfl := Option.some.inj (hp.symm.trans hq)
  exact ⟨p', hp', hserial, hours'.trans hours, hdeath⟩

theorem ProcsOk.endProcess (h : ProcsOk procs next) (pid : Nat) (d : Death) :
    ProcsOk (endProcess procs pid d) next := by
  refine ⟨fun pid' p' hp' => ?_, fun pid₁ p₁ pid₂ p₂ h₁ h₂ heq => ?_⟩
  · obtain ⟨p, hp, hserial, -⟩ := endProcess_some hp'
    rw [hserial]
    exact h.below pid' p hp
  · obtain ⟨q₁, hq₁, hs₁, -⟩ := endProcess_some h₁
    obtain ⟨q₂, hq₂, hs₂, -⟩ := endProcess_some h₂
    exact h.distinct pid₁ q₁ pid₂ q₂ hq₁ hq₂ (by rw [← hs₁, heq, hs₂])

theorem ProcsOk.remove (h : ProcsOk procs next) (pid : Nat) :
    ProcsOk (Function.update procs pid none) next := by
  have hback : ∀ pid' p', Function.update procs pid none pid' = some p' → procs pid' = some p' := by
    intro pid' p' hp'
    by_cases heq : pid' = pid
    · rw [heq, Function.update_self] at hp'
      exact absurd hp' (by simp)
    · rwa [Function.update_of_ne heq] at hp'
  exact ⟨fun pid' p' hp' => h.below pid' p' (hback pid' p' hp'), fun pid₁ p₁ pid₂ p₂ h₁ h₂ heq =>
    h.distinct pid₁ p₁ pid₂ p₂ (hback _ _ h₁) (hback _ _ h₂) heq⟩

/-- A new process gets the next serial number. -/
theorem ProcsOk.create (h : ProcsOk procs next) (pid : Nat) (ours : Bool) (death : Option Death) :
    ProcsOk (Function.update procs pid (some ⟨next, ours, death⟩)) (next + 1) := by
  have hback : ∀ pid' p', Function.update procs pid (some ⟨next, ours, death⟩) pid' = some p' →
      (pid' = pid ∧ p'.serial = next) ∨ (procs pid' = some p' ∧ p'.serial < next) := by
    intro pid' p' hp'
    by_cases heq : pid' = pid
    · rw [heq, Function.update_self] at hp'
      cases hp'
      exact .inl ⟨heq, rfl⟩
    · rw [Function.update_of_ne heq] at hp'
      exact .inr ⟨hp', h.below pid' p' hp'⟩
  refine ⟨fun pid' p' hp' => ?_, fun pid₁ p₁ pid₂ p₂ h₁ h₂ heq => ?_⟩
  · rcases hback pid' p' hp' with ⟨-, hs⟩ | ⟨-, hs⟩ <;> omega
  · rcases hback pid₁ p₁ h₁ with ⟨hp₁, hs₁⟩ | ⟨hp₁, hs₁⟩ <;>
      rcases hback pid₂ p₂ h₂ with ⟨hp₂, hs₂⟩ | ⟨hp₂, hs₂⟩
    · rw [hp₁, hp₂]
    · omega
    · omega
    · exact h.distinct pid₁ p₁ pid₂ p₂ hp₁ hp₂ heq

end Processes

/-! ## Steps -/

section Steps

variable {s : Executor}

/-- The child is still there after another process was created. -/
theorem HoldsChild.create {procs : Nat → Option Process} {childPid child pid : Nat}
    {p : Process} (h : HoldsChild procs childPid child p) (hfree : procs pid = none)
    (o : Option Process) : HoldsChild (Function.update procs pid o) childPid child p := by
  have hne : childPid ≠ pid := by
    intro heq
    have hfound := h.found
    rw [heq, hfree] at hfound
    exact absurd hfound (by simp)
  exact ⟨h.positive, by rw [Function.update_of_ne hne, h.found], h.serial, h.ours⟩

/-- It is still there, dead or alive, after any process ended. -/
theorem HoldsChild.endProcess {procs : Nat → Option Process} {childPid child : Nat}
    {p : Process} (h : HoldsChild procs childPid child p) (pid : Nat) (d : Death) :
    ∃ p', HoldsChild (endProcess procs pid d) childPid child p' ∧
      (p'.death = p.death ∨ (p.death = none ∧ p'.death = some d)) := by
  obtain ⟨p', hp', hserial, hours, hdeath⟩ := endProcess_ours pid d h.found h.ours
  exact ⟨p', ⟨h.positive, hp', hserial.trans h.serial, hours⟩, hdeath.imp_right And.right⟩

theorem DeathOk.of_timedOut {timedOut : Bool} {d : Death} (h : DeathOk timedOut d) :
    DeathOk true d :=
  fun hby => ⟨rfl, (h hby).2⟩

/-- None of the processes is the child, also after one of them ended. -/
theorem serial_ne_endProcess {procs : Nat → Option Process} {child pid : Nat} {d : Death}
    (h : ∀ pid p, procs pid = some p → p.serial ≠ child) :
    ∀ pid' p', endProcess procs pid d pid' = some p' → p'.serial ≠ child := by
  intro pid' p' hp'
  obtain ⟨p, hp, hserial, -⟩ := endProcess_some hp'
  rw [hserial]
  exact h pid' p hp

theorem phaseOk_ends (h : PhaseOk s s.phase) (pid : Nat) (status : WaitStatus) :
    PhaseOk { s with procs := endProcess s.procs pid ⟨status, false⟩ } s.phase := by
  have hnew : ∀ {p p' : Process} {timedOut : Bool},
      (p'.death = p.death ∨ (p.death = none ∧ p'.death = some ⟨status, false⟩)) →
      (∀ d, p.death = some d → DeathOk timedOut d) →
      ∀ d, p'.death = some d → DeathOk timedOut d := by
    intro p p' timedOut hdeath hok d hd
    rcases hdeath with hsame | ⟨-, hdead⟩
    · exact hok d (hsame ▸ hd)
    · obtain rfl := Option.some.inj (hdead.symm.trans hd)
      exact fun hby => absurd hby Bool.false_ne_true
  cases hphase : s.phase with
  | idle => rwa [hphase] at h
  | forked timeout =>
    rw [hphase] at h
    obtain ⟨harmed, p, hp, hok⟩ := h
    obtain ⟨p', hp', hdeath⟩ := hp.endProcess pid ⟨status, false⟩
    exact ⟨harmed, p', hp', hnew hdeath hok⟩
  | waiting timeout =>
    rw [hphase] at h
    obtain ⟨p, hp, hok, hruns⟩ := h
    obtain ⟨p', hp', hdeath⟩ := hp.endProcess pid ⟨status, false⟩
    refine ⟨p', hp', hnew hdeath hok, fun hnone => hruns ?_⟩
    rcases hdeath with hsame | ⟨hnone', -⟩
    · rw [← hsame, hnone]
    · exact hnone'
  | reaped d =>
    rw [hphase] at h
    obtain ⟨hok, hpos, hlt, hne⟩ := h
    exact ⟨hok, hpos, hlt, serial_ne_endProcess hne⟩
  | cleared d => rwa [hphase] at h
  | disarmed d => rwa [hphase] at h
  | failed => rwa [hphase] at h

theorem phaseOk_spawns (h : PhaseOk s s.phase) {pid : Nat} (hfree : s.procs pid = none) :
    PhaseOk { s with
      procs := Function.update s.procs pid (some ⟨s.nextSerial, false, none⟩)
      nextSerial := s.nextSerial + 1 } s.phase := by
  cases hphase : s.phase with
  | idle => rwa [hphase] at h
  | forked timeout =>
    rw [hphase] at h
    obtain ⟨harmed, p, hp, hok⟩ := h
    exact ⟨harmed, p, hp.create hfree _, hok⟩
  | waiting timeout =>
    rw [hphase] at h
    obtain ⟨p, hp, hok, hruns⟩ := h
    exact ⟨p, hp.create hfree _, hok, hruns⟩
  | reaped d =>
    rw [hphase] at h
    obtain ⟨hok, hpos, hlt, hne⟩ := h
    refine ⟨hok, hpos, Nat.lt_succ_of_lt hlt, fun pid' p' hp' => ?_⟩
    change Function.update s.procs pid _ pid' = some p' at hp'
    by_cases heq : pid' = pid
    · rw [heq, Function.update_self] at hp'
      cases hp'
      exact hlt.ne'
    · rw [Function.update_of_ne heq] at hp'
      exact hne pid' p' hp'
  | cleared d => rwa [hphase] at h
  | disarmed d => rwa [hphase] at h
  | failed => rwa [hphase] at h

theorem execInv_ends (h : ExecInv s) (pid : Nat) (status : WaitStatus) :
    ExecInv { s with procs := endProcess s.procs pid ⟨status, false⟩ } :=
  ⟨phaseOk_ends h.phase pid status, h.procs.endProcess _ _, h.executions, h.kills⟩

theorem execInv_spawns (h : ExecInv s) {pid : Nat} (hfree : s.procs pid = none) :
    ExecInv { s with
      procs := Function.update s.procs pid (some ⟨s.nextSerial, false, none⟩)
      nextSerial := s.nextSerial + 1 } :=
  ⟨phaseOk_spawns h.phase hfree, h.procs.create pid _ _, h.executions, h.kills⟩

/-- The timer is armed between the two calls of `setitimer` only. -/
theorem phase_of_armed (h : PhaseOk s s.phase) (harmed : s.timerArmed = true) :
    (∃ timeout, s.phase = .waiting timeout) ∨ (∃ d, s.phase = .reaped d) ∨
      ∃ d, s.phase = .cleared d := by
  have hoff : s.timerArmed ≠ false := by
    rw [harmed]
    decide
  cases hs : s.phase with
  | waiting timeout => exact .inl ⟨timeout, rfl⟩
  | reaped d => exact .inr (.inl ⟨d, rfl⟩)
  | cleared d => exact .inr (.inr ⟨d, rfl⟩)
  | idle =>
    rw [hs] at h
    exact absurd h.2 hoff
  | forked timeout =>
    rw [hs] at h
    exact absurd h.1 hoff
  | disarmed d =>
    rw [hs] at h
    exact absurd h.2.2 hoff
  | failed =>
    rw [hs] at h
    exact absurd h hoff

/-- The handler finds the child, which is dead after that. -/
theorem phaseOk_kill {timeout : UInt32} (h : PhaseOk s (.waiting timeout)) :
    PhaseOk { s with
      timerArmed := false
      childTimedOut := true
      procs := endProcess s.procs s.childPid ⟨.signaled sigkill, true⟩ } (.waiting timeout) := by
  obtain ⟨p, hp, hok, -⟩ := h
  obtain ⟨p', hp', hdeath⟩ := hp.endProcess s.childPid ⟨.signaled sigkill, true⟩
  have hdead : p'.death ≠ none := by
    have hfound := hp'.found
    rw [endProcess, Function.update_self, hp.found, Option.bind_some] at hfound
    exact endBy_dead hfound
  refine ⟨p', hp', fun d hd => ?_, fun hnone => absurd hnone hdead⟩
  rcases hdeath with hsame | ⟨-, hkilled⟩
  · exact (hok d (hsame ▸ hd)).of_timedOut
  · obtain rfl := Option.some.inj (hkilled.symm.trans hd)
    exact fun _ => ⟨rfl, rfl⟩

/-- **The timer goes off**, at any point of the call at which it can. -/
theorem execInv_alarm (h : ExecInv s) (harmed : s.timerArmed = true) :
    ExecInv (handleTimeout { s with timerArmed := false }) := by
  have hphase := h.phase
  have hpush : ∀ k : Kill, k.Ok → ∀ k' ∈ s.kills ++ [k], k'.Ok := by
    intro k hk k' hk'
    rcases List.mem_append.mp hk' with hold | hnew
    · exact h.kills k' hold
    · rwa [List.mem_singleton.mp hnew]
  unfold handleTimeout
  rcases phase_of_armed hphase harmed with ⟨timeout, hs⟩ | ⟨d, hs⟩ | ⟨d, hs⟩ <;> rw [hs] at hphase
  · -- the child is there, running or not waited for yet
    have hkill := phaseOk_kill hphase
    obtain ⟨p, hp, -⟩ := hphase
    rw [if_pos hp.positive]
    refine ⟨?_, h.procs.endProcess _ _, h.executions, hpush _ ?_⟩
    · show PhaseOk _ s.phase
      rw [hs]
      exact hkill
    · show if s.phase.afterWait = true then _
        else (s.procs s.childPid).map Process.serial = some s.child
      rw [hs, hp.found, Option.map_some, hp.serial]
      rfl
  · -- its number is free again, or another process has it
    obtain ⟨hok, hpos, hlt, hne⟩ := hphase
    rw [if_pos hpos]
    refine ⟨?_, h.procs.endProcess _ _, h.executions, hpush _ ?_⟩
    · show PhaseOk _ s.phase
      rw [hs]
      exact ⟨hok.of_timedOut, hpos, hlt, serial_ne_endProcess hne⟩
    · show if s.phase.afterWait = true then (s.procs s.childPid).map Process.serial ≠ some s.child
        else _
      rw [hs]
      intro hsome
      obtain ⟨p, hp, hserial⟩ := Option.map_eq_some_iff.mp hsome
      exact hne _ p hp hserial
  · obtain ⟨hok, hzero⟩ := hphase
    rw [if_neg (by rw [hzero]; decide)]
    refine ⟨?_, h.procs, h.executions, h.kills⟩
    show PhaseOk _ s.phase
    rw [hs]
    exact ⟨hok, hzero⟩

theorem execInv_call (h : ExecInv s) (hidle : s.phase = .idle) (pid : Option Nat)
    (timeout : UInt32) : ExecInv (callExecuteCase s pid timeout) := by
  have hphase := h.phase
  rw [hidle] at hphase
  unfold callExecuteCase
  split
  · exact ⟨hphase.2, h.procs, h.executions, h.kills⟩
  · next pid =>
    split
    · next hpid =>
      refine ⟨⟨hphase.2, ⟨s.nextSerial, true, none⟩, ⟨hpid.1, ?_, rfl, rfl⟩, ?_⟩,
        h.procs.create pid _ _, h.executions, h.kills⟩
      · exact Function.update_self ..
      · exact fun d hd => absurd hd (by simp)
    · exact h

/-- `waitpid` finds the child. -/
theorem execInv_waitChild (h : ExecInv s) {timeout : UInt32} (hs : s.phase = .waiting timeout) :
    ExecInv (waitChild s) := by
  have hphase := h.phase
  rw [hs] at hphase
  obtain ⟨p, hp, hok, -⟩ := hphase
  unfold waitChild
  rw [hp.found]
  dsimp only
  rw [if_pos hp.ours]
  cases hd : p.death with
  | none => exact h
  | some d =>
    refine ⟨⟨hok d hd, hp.positive, ?_, ?_⟩, h.procs.remove _, h.executions, h.kills⟩
    · exact hp.serial ▸ h.procs.below _ _ hp.found
    · intro pid' p' hp' heq
      change Function.update s.procs s.childPid none pid' = some p' at hp'
      by_cases hpid : pid' = s.childPid
      · rw [hpid, Function.update_self] at hp'
        exact absurd hp' (by simp)
      · rw [Function.update_of_ne hpid] at hp'
        exact hpid (h.procs.distinct _ _ _ _ hp' hp.found (heq.trans hp.serial.symm))

theorem execInv_proceed (h : ExecInv s) : ExecInv s.proceed := by
  have hphase := h.phase
  unfold Executor.proceed
  cases hs : s.phase with
  | idle => exact h
  | forked timeout =>
    rw [hs] at hphase
    obtain ⟨-, p, hp, hok⟩ := hphase
    refine ⟨⟨p, hp, hok, fun _ hne => ?_⟩, h.procs, h.executions, h.kills⟩
    simpa using hne
  | waiting timeout => exact execInv_waitChild h hs
  | reaped d =>
    rw [hs] at hphase
    exact ⟨⟨hphase.1, rfl⟩, h.procs, h.executions, h.kills⟩
  | cleared d =>
    rw [hs] at hphase
    exact ⟨⟨hphase.1, hphase.2, rfl⟩, h.procs, h.executions, h.kills⟩
  | disarmed d =>
    rw [hs] at hphase
    refine ⟨⟨hphase.2.1, hphase.2.2⟩, h.procs, fun f hf => ?_, h.kills⟩
    rcases List.mem_append.mp hf with hold | hnew
    · exact h.executions f hold
    · rw [List.mem_singleton.mp hnew]
      exact ⟨hphase.1, rfl⟩
  | failed => exact h

theorem execInv_step (s : Executor) (i : ExecInput) (h : ExecInv s) :
    ExecInv (stepExecutor s i) := by
  cases i with
  | call pid timeout =>
    rw [stepExecutor]
    split
    · next hidle => exact execInv_call h hidle pid timeout
    · exact h
  | proceed => exact execInv_proceed h
  | alarm =>
    rw [stepExecutor]
    split
    · next harmed => exact execInv_alarm h harmed
    · exact h
  | ends pid status => exact execInv_ends h pid status
  | spawns pid =>
    rw [stepExecutor]
    split
    · next hfree => exact execInv_spawns h hfree.2
    · exact h

theorem execInv_init : ExecInv .init where
  phase := ⟨rfl, rfl⟩
  procs := ⟨fun _ _ hp => absurd hp (by simp [Executor.init]),
    fun _ _ _ _ hp => absurd hp (by simp [Executor.init])⟩
  executions _ hf := absurd hf List.not_mem_nil
  kills _ hk := absurd hk List.not_mem_nil

theorem execInv_run (ins : List ExecInput) : ExecInv (run stepExecutor .init ins) :=
  run_inv' ExecInv execInv_step execInv_init ins

end Steps

/-! ## Verdicts and signals -/

/-- What the user of a campaign takes the verdict for: a hang is a target that the fuzzer
had to kill, a crash is one that a signal ended otherwise. -/
def Executed.due (f : Executed) : RunStatus :=
  if f.death.byHandler then .tmout
  else match f.death.status with
    | .exited _ => .none
    | .signaled _ => .crash

/-- **Verdicts**: whatever the target does and whenever the timer goes off, the verdict on
an execution is the one that is due, except for a target that was killed by `SIGKILL` from
elsewhere while the timer still went off before `child_pid` was cleared: that is taken for
a hang. -/
theorem verdict_due_iff (ins : List ExecInput) :
    ∀ f ∈ (run stepExecutor .init ins).executions,
      f.verdict = f.due ↔ ¬(f.death = ⟨.signaled sigkill, false⟩ ∧ f.timedOut = true) := by
  rintro ⟨child, ⟨status, byHandler⟩, timedOut, v⟩ hf
  obtain ⟨hok, hv⟩ := (execInv_run ins).executions _ hf
  dsimp only at hok hv ⊢
  subst hv
  cases byHandler with
  | true =>
    obtain ⟨htimed, hstatus⟩ := hok rfl
    dsimp only at htimed hstatus
    rw [htimed, hstatus]
    simp [runVerdict, Executed.due]
  | false =>
    cases status with
    | exited code => simp [runVerdict, Executed.due]
    | signaled sig =>
      have hdue : Executed.due ⟨child, ⟨.signaled sig, false⟩, timedOut,
        runVerdict timedOut (.signaled sig)⟩ = .crash := rfl
      rw [hdue, runVerdict]
      by_cases hkill : timedOut = true ∧ sig = sigkill
      · rw [if_pos hkill]
        simp [hkill.1, hkill.2]
      · rw [if_neg hkill]
        simp only [true_iff, Death.mk.injEq, WaitStatus.signaled.injEq, and_true]
        exact fun hboth => hkill ⟨hboth.2, hboth.1⟩

/-- A target that somebody kills, and the timer that goes off before `child_pid` is cleared. -/
def killedElsewhere : List ExecInput :=
  [.call (some 7) 1000, .proceed, .ends 7 (.signaled sigkill), .proceed, .alarm, .proceed, .proceed,
    .proceed]

theorem verdict_due_iff_killedElsewhere :
    (⟨0, ⟨.signaled sigkill, false⟩, true, .tmout⟩ : Executed)
        ∈ (run stepExecutor .init killedElsewhere).executions ∧
      (RunStatus.tmout = Executed.due ⟨0, ⟨.signaled sigkill, false⟩, true, .tmout⟩ ↔
        ¬((⟨.signaled sigkill, false⟩ : Death) = ⟨.signaled sigkill, false⟩ ∧ true = true)) :=
  ⟨by decide, verdict_due_iff killedElsewhere
    ⟨0, ⟨.signaled sigkill, false⟩, true, .tmout⟩ (by decide)⟩

/-- **Signals**: every signal of the handler goes to the child of the current call, except
between the end of `waitpid` and `child_pid = 0`: then it never does, and goes to whichever
process has the number by then. -/
theorem kills_child_iff (ins : List ExecInput) :
    ∀ k ∈ (run stepExecutor .init ins).kills, k.victim = some k.child ↔ k.afterWait = false := by
  intro k hk
  have hok := (execInv_run ins).kills k hk
  unfold Kill.Ok at hok
  split at hok
  · next hafter => simp [hafter, hok]
  · next hafter => simp [hafter, hok]

/-- The number of a child that was waited for goes to another process, which is killed. -/
def numberTaken : List ExecInput :=
  [.call (some 7) 1000, .proceed, .ends 7 (.exited 0), .proceed, .spawns 7, .alarm]

theorem kills_child_iff_numberTaken :
    (⟨some 1, 0, true⟩ : Kill) ∈ (run stepExecutor .init numberTaken).kills ∧
      (some 1 = some 0 ↔ true = false) :=
  ⟨by decide, kills_child_iff numberTaken ⟨some 1, 0, true⟩ (by decide)⟩

/-! ## No call waits for ever -/

/-- The steps that are left to the end of a call that has a time limit. -/
def ExecPhase.left : ExecPhase → Option Nat
  | .waiting timeout => if timeout = 0 then none else some 4
  | .reaped _ => some 3
  | .cleared _ => some 2
  | .disarmed _ => some 1
  | _ => none

def ExecInput.isProceed : ExecInput → Bool
  | .proceed => true
  | _ => false

/-- Beyond `n` executions, or at most `k` steps away from that, with a child that need not
run any more. -/
def Closing (n k : Nat) (s : Executor) : Prop :=
  n < s.executions.length ∨ (s.executions.length = n ∧ ∃ m ≤ k, s.phase.left = some m ∧
    (m = 4 → s.timerArmed = false))

/-- Beyond `n` executions, or in a call with a time limit. -/
def InCall (n : Nat) (s : Executor) : Prop :=
  n < s.executions.length ∨ (s.executions.length = n ∧ s.phase.left ≠ none)

section Progress

variable {s : Executor} {i : ExecInput} {n k : Nat}

/-- In a call, only the call itself moves its point. -/
theorem phase_step_of_not_proceed (hleft : s.phase.left ≠ none) (hi : i.isProceed = false) :
    (stepExecutor s i).phase = s.phase ∧ (stepExecutor s i).executions = s.executions ∧
      (s.timerArmed = false → (stepExecutor s i).timerArmed = false) := by
  cases i with
  | call pid timeout =>
    have hidle : s.phase ≠ .idle := by
      intro hidle
      rw [hidle] at hleft
      exact hleft rfl
    rw [stepExecutor, if_neg hidle]
    exact ⟨rfl, rfl, id⟩
  | proceed => exact absurd hi (by simp [ExecInput.isProceed])
  | alarm =>
    rw [stepExecutor]
    split
    · unfold handleTimeout
      split
      · exact ⟨rfl, rfl, fun _ => rfl⟩
      · exact ⟨rfl, rfl, fun _ => rfl⟩
    · exact ⟨rfl, rfl, id⟩
  | ends pid status => exact ⟨rfl, rfl, id⟩
  | spawns pid =>
    rw [stepExecutor]
    split
    · exact ⟨rfl, rfl, id⟩
    · exact ⟨rfl, rfl, id⟩

theorem executions_waitChild (s : Executor) : (waitChild s).executions = s.executions := by
  unfold waitChild
  split
  · rfl
  · split
    · split <;> rfl
    · rfl

/-- The record only grows. -/
theorem executions_step (s : Executor) (i : ExecInput) :
    s.executions.length ≤ (stepExecutor s i).executions.length := by
  cases i with
  | call pid timeout =>
    rw [stepExecutor]
    split
    · unfold callExecuteCase
      split
      · exact le_rfl
      · split <;> exact le_rfl
    · exact le_rfl
  | proceed =>
    show _ ≤ s.proceed.executions.length
    unfold Executor.proceed
    split
    · exact le_rfl
    · exact le_rfl
    · rw [executions_waitChild]
    · exact le_rfl
    · exact le_rfl
    · rw [List.length_append]
      exact Nat.le_add_right _ _
    · exact le_rfl
  | alarm =>
    rw [stepExecutor]
    split
    · unfold handleTimeout
      split <;> exact le_rfl
    · exact le_rfl
  | ends pid status => exact le_rfl
  | spawns pid =>
    rw [stepExecutor]
    split <;> exact le_rfl

/-- A step of the call, once the timer has gone off. -/
theorem closing_proceed (h : ExecInv s) (hc : Closing n (k + 1) s) :
    Closing n k (stepExecutor s .proceed) := by
  rcases hc with hlt | ⟨hn, m, hm, hleft, harmed⟩
  · exact .inl (hlt.trans_le (executions_step s .proceed))
  show Closing n k s.proceed
  have hphase := h.phase
  unfold Executor.proceed
  cases hs : s.phase with
  | waiting timeout =>
    rw [hs] at hphase hleft
    obtain ⟨p, hp, -, hruns⟩ := hphase
    rw [ExecPhase.left] at hleft
    split at hleft
    · exact absurd hleft (by simp)
    · next htimeout =>
      cases hleft
      -- the timer has gone off, so the child has been killed or was dead before
      have hdead : p.death ≠ none := fun hnone =>
        absurd (hruns hnone htimeout) (by rw [harmed rfl]; decide)
      obtain ⟨d, hd⟩ := Option.ne_none_iff_exists'.mp hdead
      dsimp only
      unfold waitChild
      rw [hp.found]
      dsimp only
      rw [if_pos hp.ours, hd]
      exact .inr ⟨hn, 3, by omega, rfl, fun h => absurd h (by decide)⟩
  | reaped d =>
    rw [hs] at hleft
    cases hleft
    exact .inr ⟨hn, 2, by omega, rfl, fun h => absurd h (by decide)⟩
  | cleared d =>
    rw [hs] at hleft
    cases hleft
    exact .inr ⟨hn, 1, by omega, rfl, fun h => absurd h (by decide)⟩
  | disarmed d =>
    refine .inl ?_
    show n < (s.executions ++ [_]).length
    rw [List.length_append, hn]
    exact Nat.lt_succ_self n
  | idle =>
    rw [hs] at hleft
    exact absurd hleft (by simp [ExecPhase.left])
  | forked timeout =>
    rw [hs] at hleft
    exact absurd hleft (by simp [ExecPhase.left])
  | failed =>
    rw [hs] at hleft
    exact absurd hleft (by simp [ExecPhase.left])

/-- Whatever else happens does not set the call back. -/
theorem closing_other (hc : Closing n k s) (hi : i.isProceed = false) :
    Closing n k (stepExecutor s i) := by
  rcases hc with hlt | ⟨hn, m, hm, hleft, harmed⟩
  · exact .inl (hlt.trans_le (executions_step s i))
  · obtain ⟨hphase, hexec, htimer⟩ := phase_step_of_not_proceed (by rw [hleft]; simp) hi
    refine .inr ⟨by rw [hexec, hn], m, hm, by rw [hphase, hleft], fun h4 => htimer (harmed h4)⟩

/-- A run with so many steps of the call. -/
theorem closing_run (h : ExecInv s) (ins : List ExecInput)
    (hc : Closing n (ins.countP ExecInput.isProceed) s) : Closing n 0 (run stepExecutor s ins) := by
  induction ins generalizing s with
  | nil => exact hc
  | cons i ins ih =>
    rw [run_cons]
    refine ih (execInv_step s i h) ?_
    cases hi : i.isProceed with
    | true =>
      rw [List.countP_cons_of_pos hi] at hc
      cases i with
      | proceed => exact closing_proceed h hc
      | _ => exact absurd hi (by simp [ExecInput.isProceed])
    | false =>
      rw [List.countP_cons_of_neg (by rw [hi]; decide)] at hc
      exact closing_other hc hi

/-- A call is not left before its end. -/
theorem inCall_step (h : ExecInv s) (hc : InCall n s) (i : ExecInput) :
    InCall n (stepExecutor s i) := by
  rcases hc with hlt | ⟨hn, hleft⟩
  · exact .inl (hlt.trans_le (executions_step s i))
  cases hi : i.isProceed with
  | false =>
    obtain ⟨hphase, hexec, -⟩ := phase_step_of_not_proceed hleft hi
    exact .inr ⟨by rw [hexec, hn], by rw [hphase]; exact hleft⟩
  | true =>
    cases i with
    | proceed =>
      show InCall n s.proceed
      have hphase := h.phase
      unfold Executor.proceed
      cases hs : s.phase with
      | waiting timeout =>
        rw [hs] at hphase
        obtain ⟨p, hp, -⟩ := hphase
        dsimp only
        unfold waitChild
        rw [hp.found]
        dsimp only
        rw [if_pos hp.ours]
        cases hd : p.death with
        | none => exact .inr ⟨hn, hleft⟩
        | some d => exact .inr ⟨hn, Option.some_ne_none 3⟩
      | reaped d => exact .inr ⟨hn, Option.some_ne_none 2⟩
      | cleared d => exact .inr ⟨hn, Option.some_ne_none 1⟩
      | disarmed d =>
        refine .inl ?_
        show n < (s.executions ++ [_]).length
        rw [List.length_append, hn]
        exact Nat.lt_succ_self n
      | _ =>
        rw [hs] at hleft
        exact absurd rfl hleft
    | _ => exact absurd hi (by simp [ExecInput.isProceed])

theorem inCall_run (h : ExecInv s) (hc : InCall n s) (ins : List ExecInput) :
    InCall n (run stepExecutor s ins) :=
  (run_inv' (fun s => ExecInv s ∧ InCall n s)
    (fun s i hs => ⟨execInv_step s i hs.1, inCall_step hs.1 hs.2 i⟩) ⟨h, hc⟩ ins).2

/-- At most four steps are left of any call. -/
theorem left_le {phase : ExecPhase} {m : Nat} (h : phase.left = some m) : 0 < m ∧ m ≤ 4 := by
  cases phase with
  | waiting timeout =>
    rw [ExecPhase.left] at h
    split at h
    · exact absurd h (by simp)
    · cases h
      decide
  | reaped d => cases h; decide
  | cleared d => cases h; decide
  | disarmed d => cases h; decide
  | _ => exact absurd h (by simp [ExecPhase.left])

theorem timerArmed_alarm (s : Executor) : (stepExecutor s .alarm).timerArmed = false := by
  rw [stepExecutor]
  split
  · unfold handleTimeout
    split <;> rfl
  · next hoff => simpa using hoff

theorem closing_alarm (h : ExecInv s) (hc : InCall n s) : Closing n 4 (stepExecutor s .alarm) := by
  rcases inCall_step h hc .alarm with hlt | ⟨hn, hleft⟩
  · exact .inl hlt
  · obtain ⟨m, hm⟩ := Option.ne_none_iff_exists'.mp hleft
    exact .inr ⟨hn, m, (left_le hm).2, hm, fun _ => timerArmed_alarm s⟩

theorem Closing.mono {k' : Nat} (hc : Closing n k s) (hk : k ≤ k') : Closing n k' s :=
  hc.imp_right fun ⟨hn, m, hm, hleft⟩ => ⟨hn, m, hm.trans hk, hleft⟩

end Progress

/-- **No call waits for ever**: from any point of a call that waits with a time limit,
whatever the target and all other processes do, the call is over once the timer has had
time to go off and the call itself has had four steps after that. -/
theorem case_ends (ins pre post : List ExecInput) (timeout : UInt32) (htimeout : timeout ≠ 0)
    (hwait : (run stepExecutor .init ins).phase = .waiting timeout)
    (hpost : 4 ≤ post.countP ExecInput.isProceed) :
    (run stepExecutor .init ins).executions.length
      < (run stepExecutor .init (ins ++ pre ++ .alarm :: post)).executions.length := by
  have hin : InCall (run stepExecutor .init ins).executions.length
      (run stepExecutor .init (ins ++ pre)) := by
    rw [run_append]
    refine inCall_run (execInv_run ins) (.inr ⟨rfl, ?_⟩) pre
    rw [hwait, ExecPhase.left, if_neg htimeout]
    exact Option.some_ne_none 4
  have hclose := closing_alarm (execInv_run (ins ++ pre)) hin
  rw [run_append, run_cons]
  rcases closing_run (execInv_step _ .alarm (execInv_run _)) post (hclose.mono hpost) with
    hlt | ⟨-, m, hm, hleft, -⟩
  · exact hlt
  · exact absurd (left_le hleft).1 (by omega)

/-- A target that does nothing, and somebody who takes over its number. -/
def stuckTarget : List ExecInput := [.call (some 7) 1000, .proceed]

theorem case_ends_stuckTarget :
    (run stepExecutor .init stuckTarget).executions.length
      < (run stepExecutor .init (stuckTarget ++ [.spawns 8] ++
        .alarm :: [.proceed, .spawns 7, .proceed, .proceed, .proceed])).executions.length :=
  case_ends stuckTarget [.spawns 8] [.proceed, .spawns 7, .proceed, .proceed, .proceed]
    1000 (by decide) (by decide) (by decide)

end DistFuzz.Fuzzer
