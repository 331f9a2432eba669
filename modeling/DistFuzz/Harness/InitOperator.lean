import DistFuzz.Harness.Client

/-!
# The init operator
(core/include/operator/dst_default_init_operator.hpp, utils/dst_common_util.hpp)

Before the client operators, a `DefaultInitOperator` writes `0` with a command
that it tries several times. It records its `:invoke` and its `:ok` together, once
a try has succeeded. A client operator records its `:invoke` before it launches
anything. A command that reports failure may have written its value all the same,
and then a read can return a value that no `:invoke` in the history carries.

- `initStep`: one call of `DefaultInitOperator::_do` with `retry_command` inside.
- `operatorStep`: calls of both kinds as threads with a common log.
- `InvokedFirst`: wherever the log has the launch of a command that writes a
  value, an `:invoke` that carries the value comes before.
- `invoked_first_iff`: this holds of exactly the runs in which no init operator
  launches its command while no `:invoke` carries `0`.
-/

namespace DistFuzz.Harness

open DistFuzz.Lib

/-! ## One call -/

/-- A call of `DefaultInitOperator::_do`. -/
structure InitCall where
  process : Nat
  maxTryCount : Int
  writeZeroCommand : String

/-- Where a call is: not begun, about to spawn a try, in `wait`, after the loop of
`retry_command`, after the `:invoke` record, returned, or left by an exception. -/
inductive InitPhase where
  | start
  | trying (count : Nat)
  | waiting (count : Nat)
  | succeeded
  | recorded
  | returned (result : Bool)
  | thrown
deriving DecidableEq, Repr

/-- The call begins, a child is spawned or that throws, the child exits, the next
record is sent. -/
inductive InitInput where
  | begin
  | spawn (succeeds : Bool)
  | exit (exitCode : Int)
  | record
deriving DecidableEq, Repr

/-- The head of the loop of `retry_command`. -/
def retryHead (c : InitCall) (count : Nat) : InitPhase :=
  if (count : Int) < c.maxTryCount then .trying count else .returned false

/-- `DefaultInitOperator::_do`. -/
def initStep (c : InitCall) : InitPhase → InitInput → InitPhase × List Effect
  | .start, .begin => (retryHead c 0, [])
  | .trying count, .spawn succeeds =>
    if succeeds then (.waiting count, [.launch c.writeZeroCommand (some 0)]) else (.thrown, [])
  | .waiting count, .exit exitCode =>
    if exitCode = 0 then (.succeeded, []) else (retryHead c (count + 1), [])
  | .succeeded, .record => (.recorded, [.record ⟨c.process, .invoke, .write, .num 0⟩])
  | .recorded, .record => (.returned true, [.record ⟨c.process, .ok, .write, .num 0⟩])
  | phase, _ => (phase, [])

/-! ## Operators of both kinds -/

inductive Operator where
  | client (c : ClientCall)
  | init (c : InitCall)

inductive OperatorPhase where
  | client (phase : ClientPhase)
  | init (phase : InitPhase)
deriving DecidableEq, Repr

inductive OperatorInput where
  | client (i : ClientInput)
  | init (i : InitInput)
deriving DecidableEq, Repr

def Operator.startPhase : Operator → OperatorPhase
  | .client _ => .client .start
  | .init _ => .init .start

/-- One step of an operator. -/
def operatorStep : Operator → OperatorPhase → OperatorInput → OperatorPhase × List Effect
  | .client c, .client phase, .client i =>
    (.client (clientStep c phase i).1, (clientStep c phase i).2)
  | .init c, .init phase, .init i => (.init (initStep c phase i).1, (initStep c phase i).2)
  | _, phase, _ => (phase, [])

/-! ## Invocation before effect -/

/-- The value contains the number. -/
def EventValue.Carries : EventValue → Int → Prop
  | .nil, _ => False
  | .num n, v => n = v
  | .pair a b, v => (a.toNat : Int) = v ∨ (b.toNat : Int) = v

/-- Some `:invoke` record carries the number. -/
def InvokedIn {τ : Type*} (log : List (τ × Effect)) (v : Int) : Prop :=
  ∃ e ∈ history log, e.type = .invoke ∧ e.value.Carries v

/-- Before every launch of a command that writes a value, an `:invoke` that
carries the value was recorded. -/
def InvokedFirst {τ : Type*} (log : List (τ × Effect)) : Prop :=
  ∀ pre t command v post, log = pre ++ (t, .launch command (some v)) :: post → InvokedIn pre v

/-- The step is the launch of an init operator. -/
def InitLaunches (o : Operator) (phase : OperatorPhase) (i : OperatorInput) : Prop :=
  ∃ c count, o = .init c ∧ phase = .init (.trying count) ∧ i = .init (.spawn true)

/-! ## What a step does -/

/-- Client operators have done what `ClientLog` says. -/
def OperatorLog : Operator → OperatorPhase → List Effect → Prop
  | .client c, .client phase, es => ClientLog c phase es
  | .client _, .init _, _ => False
  | .init _, _, _ => True

theorem operatorLog_start (o : Operator) : OperatorLog o o.startPhase [] := by
  cases o with
  | client c => exact .start
  | init c => trivial

theorem operatorLog_step {o : Operator} {phase : OperatorPhase} {es : List Effect}
    (h : OperatorLog o phase es) (i : OperatorInput) :
    OperatorLog o (operatorStep o phase i).1 (es ++ (operatorStep o phase i).2) := by
  cases o with
  | init c => trivial
  | client c =>
    cases phase with
    | init phase => exact h.elim
    | client phase =>
      cases i with
      | client i => exact clientLog_step h i
      | init i =>
        show ClientLog c phase (es ++ [])
        rw [List.append_nil]
        exact h

theorem clientStep_effects (c : ClientCall) (phase : ClientPhase) (i : ClientInput) :
    (clientStep c phase i).2 = [] ∨ (∃ e, (clientStep c phase i).2 = [.record e]) ∨
      ∃ num1 num2, phase = .invoked num1 num2 ∧
        (clientStep c phase i).2 = [.launch (c.command num1 num2) (c.writes num1 num2)] := by
  unfold clientStep
  split
  · split
    · exact .inl rfl
    · exact .inr (.inl ⟨_, rfl⟩)
  · split
    · exact .inr (.inr ⟨_, _, rfl, rfl⟩)
    · exact .inl rfl
  · split
    · exact .inl rfl
    · split
      · exact .inl rfl
      · exact .inr (.inl ⟨_, rfl⟩)
  · exact .inl rfl

theorem initStep_effects (c : InitCall) (phase : InitPhase) (i : InitInput) :
    (∃ count, phase = .trying count ∧ i = .spawn true ∧
        (initStep c phase i).2 = [.launch c.writeZeroCommand (some 0)]) ∨
      ((¬∃ count, phase = .trying count ∧ i = .spawn true) ∧
        ((initStep c phase i).2 = [] ∨ ∃ e, (initStep c phase i).2 = [.record e])) := by
  unfold initStep
  split
  · exact .inr ⟨by simp, .inl rfl⟩
  · next succeeds =>
    cases succeeds with
    | true => exact .inl ⟨_, rfl, rfl, rfl⟩
    | false => exact .inr ⟨by simp, .inl rfl⟩
  · split
    · exact .inr ⟨by simp, .inl rfl⟩
    · exact .inr ⟨by simp, .inl rfl⟩
  · exact .inr ⟨by simp, .inr ⟨_, rfl⟩⟩
  · exact .inr ⟨by simp, .inr ⟨_, rfl⟩⟩
  · next _ hspawn _ _ _ => exact .inr ⟨fun ⟨count, hph, hi⟩ => hspawn count true hph hi, .inl rfl⟩

/-- **A step** launches the command of an init operator, or it does nothing to the
outside, records something, or launches the command of a client operator that has
just recorded its `:invoke`. -/
theorem operatorStep_effects (o : Operator) (phase : OperatorPhase) (i : OperatorInput) :
    (InitLaunches o phase i ∧
        ∃ command, (operatorStep o phase i).2 = [.launch command (some 0)]) ∨
      (¬InitLaunches o phase i ∧
        ((operatorStep o phase i).2 = [] ∨ (∃ e, (operatorStep o phase i).2 = [.record e]) ∨
          ∃ c num1 num2, o = .client c ∧ phase = .client (.invoked num1 num2) ∧
            (operatorStep o phase i).2
              = [.launch (c.command num1 num2) (c.writes num1 num2)])) := by
  unfold operatorStep InitLaunches
  split
  · next c phase i =>
    refine .inr ⟨by simp, ?_⟩
    rcases clientStep_effects c phase i with h | h | ⟨num1, num2, rfl, h⟩
    · exact .inl h
    · exact .inr (.inl h)
    · exact .inr (.inr ⟨c, num1, num2, rfl, rfl, h⟩)
  · next c phase i =>
    rcases initStep_effects c phase i with ⟨count, rfl, rfl, h⟩ | ⟨hno, h⟩
    · exact .inl ⟨⟨c, count, rfl, rfl, rfl⟩, _, h⟩
    · refine .inr ⟨?_, h.imp_right .inl⟩
      rintro ⟨c', count, -, hph, hi⟩
      exact hno ⟨count, OperatorPhase.init.inj hph, OperatorInput.init.inj hi⟩
  · next hclient hinit =>
    refine .inr ⟨?_, .inl rfl⟩
    rintro ⟨c, count, rfl, rfl, rfl⟩
    exact hinit c _ _ rfl rfl rfl

/-! ## Interleavings -/

section Interleaving

variable {τ : Type*} [DecidableEq τ] (ops : τ → Operator)

/-- Any number of calls, their steps in any order. -/
def stepOperators (s : Threads τ OperatorPhase Effect) (a : τ × OperatorInput) :
    Threads τ OperatorPhase Effect :=
  stepThreads (fun t => operatorStep (ops t)) s a

/-- None of the calls has begun. -/
def startOperators : Threads τ OperatorPhase Effect := .start fun t => (ops t).startPhase

/-- An init operator launches its command while no `:invoke` carries `0`. -/
def LaunchesUninvoked (s : Threads τ OperatorPhase Effect) (a : τ × OperatorInput) : Prop :=
  InitLaunches (ops a.1) (s.loc a.1) a.2 ∧ ¬InvokedIn s.log 0

omit [DecidableEq τ] in
/-- One more entry. -/
theorem invokedFirst_concat (log : List (τ × Effect)) (t : τ) (eff : Effect) :
    InvokedFirst (log ++ [(t, eff)]) ↔ InvokedFirst log ∧
      ∀ command v, eff = .launch command (some v) → InvokedIn log v := by
  constructor
  · intro h
    constructor
    · rintro pre t' command v post rfl
      exact h pre t' command v (post ++ [(t, eff)]) (by rw [List.append_assoc, List.cons_append])
    · rintro command v rfl
      exact h log t command v [] rfl
  · rintro ⟨hlog, hnew⟩ pre t' command v post heq
    -- the launch is the new entry, or it is in the older part of the log
    rcases List.eq_nil_or_concat post with rfl | ⟨post', last, rfl⟩
    · obtain ⟨rfl, hlast⟩ := List.append_inj' heq rfl
      obtain ⟨-, rfl⟩ := Prod.mk.inj (List.cons.inj hlast).1
      exact hnew command v rfl
    · rw [List.concat_eq_append, ← List.cons_append, ← List.append_assoc] at heq
      obtain ⟨rfl, -⟩ := List.append_inj' heq rfl
      exact hlog pre t' command v post' rfl

/-- A client operator that is about to launch has recorded what it writes. -/
theorem invokedIn_of_invoked {s : Threads τ OperatorPhase Effect}
    (hs : ∀ t, OperatorLog (ops t) (s.loc t) (ownLog t s.log)) {t : τ} {c : ClientCall}
    {num1 num2 : UInt32} (hop : ops t = .client c)
    (hloc : s.loc t = .client (.invoked num1 num2)) {v : Int} (hv : c.writes num1 num2 = some v) :
    InvokedIn s.log v := by
  have hlog := hs t
  rw [hop, hloc] at hlog
  have hmem : .record (c.invokeRecord num1 num2) ∈ ownLog t s.log := by
    -- in this phase the record of the `:invoke` is all that the call has put out
    generalize ownLog t s.log = es at hlog
    cases hlog
    exact List.mem_singleton_self _
  refine ⟨c.invokeRecord num1 num2, ?_, rfl, ?_⟩
  · exact List.mem_filterMap.mpr ⟨_, mem_ownLog.mp hmem, rfl⟩
  · unfold ClientCall.invokeRecord ClientCall.invokeValue
    unfold ClientCall.writes at hv
    cases hname : c.opName with
    | read =>
      rw [hname] at hv
      cases hv
    | write =>
      rw [hname] at hv
      exact Option.some.inj hv
    | cas =>
      rw [hname] at hv
      exact .inr (Option.some.inj hv)

/-- **One step**. -/
theorem invokedFirst_step {s : Threads τ OperatorPhase Effect}
    (hs : ∀ t, OperatorLog (ops t) (s.loc t) (ownLog t s.log)) (a : τ × OperatorInput) :
    InvokedFirst (stepOperators ops s a).log ↔
      InvokedFirst s.log ∧ ¬LaunchesUninvoked ops s a := by
  obtain ⟨t, i⟩ := a
  have hlog : (stepOperators ops s (t, i)).log
      = s.log ++ (operatorStep (ops t) (s.loc t) i).2.map (t, ·) := rfl
  unfold LaunchesUninvoked
  rw [hlog]
  -- an init operator launches without a record of its own, a client operator after one
  rcases operatorStep_effects (ops t) (s.loc t) i with ⟨hinit, command, heff⟩ | ⟨hno, h⟩
  · rw [heff, List.map_singleton, invokedFirst_concat]
    refine and_congr_right fun _ => ⟨?_, ?_⟩
    · rintro h ⟨-, hnot⟩
      exact hnot (h command 0 rfl)
    · intro h command' v heq
      obtain ⟨-, hv⟩ := Effect.launch.inj heq
      obtain rfl := Option.some.inj hv
      by_contra hnot
      exact h ⟨hinit, hnot⟩
  · rw [and_iff_left fun h => hno h.1]
    rcases h with heff | ⟨e, heff⟩ | ⟨c, num1, num2, hop, hloc, heff⟩
    · rw [heff, List.map_nil, List.append_nil]
    · rw [heff, List.map_singleton, invokedFirst_concat]
      exact and_iff_left fun _ _ heq => by cases heq
    · rw [heff, List.map_singleton, invokedFirst_concat]
      refine and_iff_left fun command v heq => ?_
      exact invokedIn_of_invoked ops hs hop hloc (Effect.launch.inj heq).2

/-- **Invocation before effect**: for any number of client and init operators,
any outcomes of their commands and any interleaving, an `:invoke` that carries
the value precedes every launch of a command that writes one, if and only if no
init operator launches its command while no `:invoke` carries `0`. -/
theorem invoked_first_iff (acts : List (τ × OperatorInput)) :
    InvokedFirst (run (stepOperators ops) (startOperators ops) acts).log ↔
      Steps (stepOperators ops) (fun s a => ¬LaunchesUninvoked ops s a) (startOperators ops)
        acts := by
  have hinv : ∀ s a, (∀ t, OperatorLog (ops t) (s.loc t) (ownLog t s.log)) →
      ∀ t, OperatorLog (ops t) ((stepOperators ops s a).loc t)
        (ownLog t (stepOperators ops s a).log) := fun s a hs =>
    threads_step (fun t => OperatorLog (ops t)) (fun _ _ _ i h => operatorLog_step h i) hs a
  have hstart : InvokedFirst (startOperators ops).log := fun pre t command v post heq =>
    absurd heq (by simp [startOperators, Threads.start])
  have hrun := good_run_iff (s := startOperators ops) _ (fun s => InvokedFirst s.log) hinv
    (fun s a hs => invokedFirst_step ops hs a) (fun t => operatorLog_start (ops t)) acts
  rwa [and_iff_right hstart] at hrun

end Interleaving

/-- An init operator with the default number of tries. -/
def writeZero : Operator := .init ⟨1, 5, "write 0"⟩

/-- Its first command is launched before anything is recorded. If the command
fails, also nothing is recorded afterwards. -/
theorem writeZero_uninvoked :
    ¬InvokedFirst (run (stepOperators fun _ : Unit => writeZero)
      (startOperators fun _ => writeZero)
      [((), .init .begin), ((), .init (.spawn true)), ((), .init (.exit 1))]).log := by
  intro h
  obtain ⟨e, he, -⟩ := h [] () "write 0" 0 [] rfl
  cases he

end DistFuzz.Harness
