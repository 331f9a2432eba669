import DistFuzz.Lib.Threads
import DistFuzz.Harness.EventControl
import Mathlib.Data.Nat.Digits.Defs

/-!
# Client operators and their history
(core/src/operator/dst_default_client_operator.cpp)

A `DefaultClientOperator` reads, writes or compares-and-sets by running a client
command. It records an `:invoke` before and, if the command succeeds, an `:ok`
after it; the checker takes the recorded events for the history of the system.
Operators run concurrently.

- `getLastOutput`, `stoll`: how the result of a read is parsed; subclasses may
  parse it in another way.
- `clientStep`: one call of `_do`, cut where other threads can come in between, with
  any outcome of the command. What it does to the outside is an `Effect`.
- `ClientLog`: what a call has done at each point.
- `WellFormed`: what the checker expects of a history; `drawn`: the numbers a call draws;
  `history_wellFormed`: every interleaving of any number of calls gives such a history.
- `fits_text`: every record is short enough for the queue of `EventControl`.
-/

namespace DistFuzz.Harness

open DistFuzz.Lib

/-! ## Records -/

/-- `OP_NAME`. -/
inductive OpName where
  | write
  | read
  | cas
deriving DecidableEq, Repr

/-- `OP_NAME_STR`. -/
def OpName.str : OpName → String
  | .write => "write"
  | .read => "read"
  | .cas => "cas"

/-- `:type`. -/
inductive EventType where
  | invoke
  | ok
deriving DecidableEq, Repr

def EventType.text : EventType → String
  | .invoke => ":invoke"
  | .ok => ":ok"

/-- `:value`. -/
inductive EventValue where
  | nil
  | num (n : Int)
  | pair (a b : UInt32)
deriving DecidableEq, Repr

/-- `std::to_string` of a signed number. -/
def toDecimalInt (n : Int) : String :=
  if n < 0 then "-" ++ n.natAbs.repr else n.natAbs.repr

def EventValue.text : EventValue → String
  | .nil => "nil"
  | .num n => toDecimalInt n
  | .pair a b => "[" ++ a.toNat.repr ++ " " ++ b.toNat.repr ++ "]"

/-- A recorded event. -/
structure HistoryEvent where
  process : Nat
  type : EventType
  f : OpName
  value : EventValue
deriving DecidableEq, Repr

/-- The argument of `__dst_event_record`. -/
def HistoryEvent.text (e : HistoryEvent) : String :=
  "\x7b:process " ++ e.process.repr ++ ", :type " ++ e.type.text ++ ", :f :" ++ e.f.str
    ++ ", :value " ++ e.value.text ++ "\x7d"

/-! ## Results of reads -/

/-- The lines `std::getline` gets: no last one if the text ends with a newline. -/
def getLines (text : List Char) : List (List Char) :=
  let lines := text.splitOn '\n'
  if lines.getLast? = some [] then lines.dropLast else lines

/-- `get_last_output`: the last line before the first empty one. -/
def getLastOutput (text : List Char) : List Char :=
  ((getLines text).takeWhile (!·.isEmpty)).getLastD []

/-- `isspace`. -/
def isSpace (c : Char) : Bool :=
  c == ' ' || ('\t' ≤ c && c ≤ '\r')

/-- The value of a list of decimal digits. -/
def digitsValue (ds : List Char) : Nat := ds.foldl (fun v c => v * 10 + (c.toNat - '0'.toNat)) 0

/-- `std::stoll`; `none` if it throws. -/
def stoll (s : List Char) : Option Int :=
  let s := s.dropWhile isSpace
  let neg := s.head? == some '-'
  let s := if s.head? == some '-' || s.head? == some '+' then s.tail else s
  let ds := s.takeWhile Char.isDigit
  let n : Int := if neg then -(digitsValue ds : Int) else digitsValue ds
  if ds.isEmpty then none
  else if -2 ^ 63 ≤ n ∧ n < 2 ^ 63 then some n
  else none

/-- `DefaultClientOperator::parse_read_result`. -/
def parseReadResult (text : List Char) : Option Int := stoll (getLastOutput text)

/-! ## One call -/

/-- A call of `_do`: its `random_thread_id`, the operation, and what a subclass
brings along. The command is empty if the operation is not supported; parsing
the output of a read gives an `int64_t` or throws. -/
structure ClientCall where
  process : Nat
  opName : OpName
  nodeCount : UInt32
  getConfigureString : OpName → UInt32 → List UInt32 → String
  parseReadResult : List Char → Option Int

/-- What a call does to the outside: it records an event, or launches a command
that writes a value or none. -/
inductive Effect where
  | record (e : HistoryEvent)
  | launch (command : String) (writes : Option Int)
deriving DecidableEq, Repr

def Effect.record? : Effect → Option HistoryEvent
  | .record e => some e
  | .launch _ _ => none

namespace ClientCall

variable (c : ClientCall)

/-- The command, given the two random numbers. -/
def command (num1 num2 : UInt32) : String :=
  match c.opName with
  | .read => c.getConfigureString .read c.nodeCount []
  | .write => c.getConfigureString .write c.nodeCount [num1]
  | .cas => c.getConfigureString .cas c.nodeCount [num1, num2]

/-- The value of the `:invoke` record. -/
def invokeValue (num1 num2 : UInt32) : EventValue :=
  match c.opName with
  | .read => .nil
  | .write => .num num1.toNat
  | .cas => .pair num1 num2

/-- The value of the `:ok` record, `none` if parsing throws. -/
def okValue (num1 num2 : UInt32) (output : List Char) : Option EventValue :=
  match c.opName with
  | .read => (c.parseReadResult output).map .num
  | .write => some (.num num1.toNat)
  | .cas => some (.pair num1 num2)

/-- The value the command writes. -/
def writes (num1 num2 : UInt32) : Option Int :=
  match c.opName with
  | .read => none
  | .write => some num1.toNat
  | .cas => some num2.toNat

def invokeRecord (num1 num2 : UInt32) : HistoryEvent :=
  ⟨c.process, .invoke, c.opName, c.invokeValue num1 num2⟩

def okRecord (v : EventValue) : HistoryEvent := ⟨c.process, .ok, c.opName, v⟩

end ClientCall

/-- Where a call is: not begun, returned because the operation is not supported,
about to spawn the child, in `wait`, or returned. -/
inductive ClientPhase where
  | start
  | unsupported
  | invoked (num1 num2 : UInt32)
  | waiting (num1 num2 : UInt32)
  | returned (result : Bool)
deriving DecidableEq, Repr

/-- What happens to a call: it runs up to its `:invoke` record with the random
numbers it reads, the child is spawned or that throws, the child exits. -/
inductive ClientInput where
  | begin (num1 num2 : UInt32)
  | spawn (succeeds : Bool)
  | exit (exitCode : Int) (output : List Char)
deriving DecidableEq, Repr

/-- `DefaultClientOperator::_do`. An exception is caught and nothing recorded. -/
def clientStep (c : ClientCall) : ClientPhase → ClientInput → ClientPhase × List Effect
  | .start, .begin num1 num2 =>
    if (c.command num1 num2).isEmpty then (.unsupported, [])
    else (.invoked num1 num2, [.record (c.invokeRecord num1 num2)])
  | .invoked num1 num2, .spawn succeeds =>
    if succeeds then
      (.waiting num1 num2, [.launch (c.command num1 num2) (c.writes num1 num2)])
    else (.returned false, [])
  | .waiting num1 num2, .exit exitCode output =>
    if exitCode ≠ 0 then (.returned false, [])
    else
      match c.okValue num1 num2 output with
      | none => (.returned false, [])
      | some v => (.returned true, [.record (c.okRecord v)])
  | phase, _ => (phase, [])

/-- The numbers a call draws: those of its first `begin`, before which nothing happens to
it. -/
def drawn : List ClientInput → Option (UInt32 × UInt32)
  | [] => none
  | .begin num1 num2 :: _ => some (num1, num2)
  | _ :: ins => drawn ins

/-- A call whose command is empty returns at once, and for good. -/
theorem unsupported_of_drawn {c : ClientCall} {ins : List ClientInput} {num1 num2 : UInt32}
    (hdrawn : drawn ins = some (num1, num2)) (hempty : (c.command num1 num2).isEmpty = true) :
    run (fun phase i => (clientStep c phase i).1) .start ins = .unsupported := by
  induction ins with
  | nil => cases hdrawn
  | cons i ins ih =>
    rw [run_cons]
    cases i with
    | begin n1 n2 =>
      obtain ⟨rfl, rfl⟩ := Prod.mk.inj (Option.some.inj hdrawn)
      rw [clientStep, if_pos hempty]
      -- no later input leads out of this phase
      refine run_inv' (· = ClientPhase.unsupported) (fun phase i h => ?_) rfl ins
      rw [h]
      cases i <;> rfl
    | spawn succeeds => exact ih hdrawn
    | exit exitCode output => exact ih hdrawn

/-! ## What a call has done -/

/-- The effects of a call, at each point of it. -/
inductive ClientLog (c : ClientCall) : ClientPhase → List Effect → Prop
  | start : ClientLog c .start []
  | unsupported : ClientLog c .unsupported []
  | invoked (num1 num2 : UInt32) :
      ClientLog c (.invoked num1 num2) [.record (c.invokeRecord num1 num2)]
  | notSpawned (num1 num2 : UInt32) :
      ClientLog c (.returned false) [.record (c.invokeRecord num1 num2)]
  | waiting (num1 num2 : UInt32) :
      ClientLog c (.waiting num1 num2)
        [.record (c.invokeRecord num1 num2), .launch (c.command num1 num2) (c.writes num1 num2)]
  | failed (num1 num2 : UInt32) :
      ClientLog c (.returned false)
        [.record (c.invokeRecord num1 num2), .launch (c.command num1 num2) (c.writes num1 num2)]
  | succeeded (num1 num2 : UInt32) (v : EventValue)
      (hv : c.opName ≠ .read → v = c.invokeValue num1 num2) :
      ClientLog c (.returned true)
        [.record (c.invokeRecord num1 num2), .launch (c.command num1 num2) (c.writes num1 num2),
          .record (c.okRecord v)]

theorem okValue_eq_invokeValue {c : ClientCall} {num1 num2 : UInt32} {output : List Char}
    {v : EventValue} (h : c.okValue num1 num2 output = some v) (hop : c.opName ≠ .read) :
    v = c.invokeValue num1 num2 := by
  unfold ClientCall.okValue at h
  unfold ClientCall.invokeValue
  cases hname : c.opName with
  | read => exact absurd hname hop
  | write =>
    rw [hname] at h
    exact (Option.some.inj h).symm
  | cas =>
    rw [hname] at h
    exact (Option.some.inj h).symm

/-- **One step** of a call. -/
theorem clientLog_step {c : ClientCall} {phase : ClientPhase} {es : List Effect}
    (h : ClientLog c phase es) (i : ClientInput) :
    ClientLog c (clientStep c phase i).1 (es ++ (clientStep c phase i).2) := by
  -- the phase says all that was put out so far, so one case for each phase is enough
  cases h with
  | start =>
    cases i with
    | begin num1 num2 =>
      rw [clientStep]
      split
      · exact .unsupported
      · exact .invoked num1 num2
    | spawn succeeds => exact .start
    | exit exitCode output => exact .start
  | unsupported => cases i <;> exact .unsupported
  | invoked num1 num2 =>
    cases i with
    | begin _ _ => exact .invoked num1 num2
    | spawn succeeds =>
      cases succeeds with
      | true => exact .waiting num1 num2
      | false => exact .notSpawned num1 num2
    | exit exitCode output => exact .invoked num1 num2
  | notSpawned num1 num2 => cases i <;> exact .notSpawned num1 num2
  | waiting num1 num2 =>
    cases i with
    | begin _ _ => exact .waiting num1 num2
    | spawn succeeds => exact .waiting num1 num2
    | exit exitCode output =>
      rw [clientStep]
      split
      · exact .failed num1 num2
      -- the exit code is zero, and the parser may still throw
      · split
        · exact .failed num1 num2
        · next v hv => exact .succeeded num1 num2 v (okValue_eq_invokeValue hv)
  | failed num1 num2 => cases i <;> exact .failed num1 num2
  | succeeded num1 num2 v hv => cases i <;> exact .succeeded num1 num2 v hv

/-! ## The history -/

/-- The recorded events. -/
def history {τ : Type*} (log : List (τ × Effect)) : List HistoryEvent :=
  log.filterMap (·.2.record?)

/-- The history the checker expects: a process has at most one `:invoke` and at
most one `:ok`, and before the `:ok` stands an `:invoke` of the same process and
operation, with the same value unless it is a read. -/
structure WellFormed (h : List HistoryEvent) : Prop where
  invokeOnce : ∀ p, h.countP (fun e => e.type = .invoke && e.process = p) ≤ 1
  okOnce : ∀ p, h.countP (fun e => e.type = .ok && e.process = p) ≤ 1
  okInvoked : ∀ pre e post, h = pre ++ e :: post → e.type = .ok →
    ∃ e' ∈ pre, e'.type = .invoke ∧ e'.process = e.process ∧ e'.f = e.f ∧
      (e.f ≠ .read → e'.value = e.value)

/-- What one process recorded: nothing, an `:invoke`, or an `:invoke` and an `:ok`
that fits. -/
inductive ProcessHistory : List HistoryEvent → Prop
  | none : ProcessHistory []
  | invoke (e : HistoryEvent) (he : e.type = .invoke) : ProcessHistory [e]
  | ok (e e' : HistoryEvent) (he : e.type = .invoke) (he' : e'.type = .ok) (hf : e.f = e'.f)
      (hv : e'.f ≠ .read → e.value = e'.value) : ProcessHistory [e, e']

theorem processHistory_of_clientLog {c : ClientCall} {phase : ClientPhase} {es : List Effect}
    (h : ClientLog c phase es) : ProcessHistory (es.filterMap Effect.record?) := by
  cases h with
  | start => exact .none
  | unsupported => exact .none
  | invoked num1 num2 => exact .invoke _ rfl
  | notSpawned num1 num2 => exact .invoke _ rfl
  | waiting num1 num2 => exact .invoke _ rfl
  | failed num1 num2 => exact .invoke _ rfl
  | succeeded num1 num2 v hv => exact .ok _ _ rfl rfl rfl fun hf => (hv hf).symm

theorem clientLog_unsupported {c : ClientCall} {es : List Effect}
    (h : ClientLog c .unsupported es) : es = [] := by
  cases h
  rfl

/-- A call records under its own process id only. -/
theorem process_of_clientLog {c : ClientCall} {phase : ClientPhase} {es : List Effect}
    (h : ClientLog c phase es) {e : HistoryEvent} (he : .record e ∈ es) :
    e.process = c.process := by
  have hmem : e ∈ es.filterMap Effect.record? := List.mem_filterMap.mpr ⟨_, he, rfl⟩
  cases h with
  | start => cases hmem
  | unsupported => cases hmem
  | invoked num1 num2 =>
    obtain rfl := List.mem_singleton.mp hmem
    rfl
  | notSpawned num1 num2 =>
    obtain rfl := List.mem_singleton.mp hmem
    rfl
  | waiting num1 num2 =>
    obtain rfl := List.mem_singleton.mp hmem
    rfl
  | failed num1 num2 =>
    obtain rfl := List.mem_singleton.mp hmem
    rfl
  | succeeded num1 num2 v hv =>
    rcases List.mem_cons.mp hmem with rfl | hmem
    · rfl
    · obtain rfl := List.mem_singleton.mp hmem
      rfl

theorem ProcessHistory.countP_le_one {es : List HistoryEvent} (h : ProcessHistory es)
    (ty : EventType) : es.countP (fun e => decide (e.type = ty)) ≤ 1 := by
  cases h with
  | none => exact Nat.zero_le _
  | invoke e he => exact List.countP_le_length
  | ok e e' he he' =>
    rw [List.countP_cons, List.countP_cons, he, he', List.countP_nil]
    cases ty <;> decide

/-- In what one process recorded, an `:ok` has its `:invoke` before it. -/
theorem ProcessHistory.invoked {pre post : List HistoryEvent} {e : HistoryEvent}
    (h : ProcessHistory (pre ++ e :: post)) (hok : e.type = .ok) :
    ∃ e' ∈ pre, e'.type = .invoke ∧ e'.f = e.f ∧ (e.f ≠ .read → e'.value = e.value) := by
  generalize heq : pre ++ e :: post = es at h
  cases h with
  | none => exact absurd heq (by simp)
  | invoke e₁ he =>
    cases pre with
    | nil =>
      obtain ⟨rfl, -⟩ := List.cons.inj heq
      exact absurd (hok.symm.trans he) (by decide)
    | cons _ pre => exact absurd (List.cons.inj heq).2 (by simp)
  | ok e₁ e₂ he he' hf hv =>
    -- a process has two records at most, and only the second one is an `:ok`
    rcases pre with _ | ⟨e₀, _ | ⟨_, pre⟩⟩
    · obtain ⟨rfl, -⟩ := List.cons.inj heq
      exact absurd (hok.symm.trans he) (by decide)
    · obtain ⟨rfl, htail⟩ := List.cons.inj heq
      obtain ⟨rfl, -⟩ := List.cons.inj htail
      exact ⟨e₀, List.mem_singleton_self _, he, hf, hv⟩
    · obtain ⟨-, htail⟩ := List.cons.inj heq
      exact absurd (List.cons.inj htail).2 (by simp)

/-- A history is well formed if it is so process by process. -/
theorem wellFormed_of_processes {h : List HistoryEvent}
    (hp : ∀ p, ProcessHistory (h.filter fun e => decide (e.process = p))) : WellFormed h where
  invokeOnce p := by
    rw [← List.countP_filter]
    exact (hp p).countP_le_one .invoke
  okOnce p := by
    rw [← List.countP_filter]
    exact (hp p).countP_le_one .ok
  okInvoked pre e post heq hok := by
    -- the `:ok` is found among the records of its own process
    have hproc := hp e.process
    rw [heq, List.filter_append, List.filter_cons, if_pos (decide_eq_true rfl)] at hproc
    obtain ⟨e', hmem, hinv, hf, hv⟩ := hproc.invoked hok
    obtain ⟨hpre, hown⟩ := List.mem_filter.mp hmem
    exact ⟨e', hpre, hinv, of_decide_eq_true hown, hf, hv⟩

section Interleaving

variable {τ : Type*} [DecidableEq τ] (calls : τ → ClientCall)

/-- Any number of calls, their steps in any order. -/
def runClients (acts : List (τ × ClientInput)) : Threads τ ClientPhase Effect :=
  run (stepThreads fun t => clientStep (calls t)) (.start fun _ => .start) acts

theorem clientLog_run (acts : List (τ × ClientInput)) (t : τ) :
    ClientLog (calls t) ((runClients calls acts).loc t) (ownLog t (runClients calls acts).log) :=
  threads_inv (fun t => ClientLog (calls t)) (fun _ _ _ i h => clientLog_step h i) (fun _ => .start)
    acts t

/-- What process `p` recorded is what its call did. -/
theorem history_filter {calls : τ → ClientCall}
    (hpid : Function.Injective fun t => (calls t).process) {log : List (τ × Effect)}
    (hown : ∀ t e, .record e ∈ ownLog t log → e.process = (calls t).process) (t : τ) :
    (history log).filter (fun e => decide (e.process = (calls t).process))
      = (ownLog t log).filterMap Effect.record? := by
  unfold history
  conv_rhs => unfold ownLog
  rw [List.filter_filterMap, List.filterMap_map, List.filterMap_filter]
  refine List.filterMap_congr fun x hx => ?_
  obtain ⟨t', eff⟩ := x
  cases eff with
  | launch command w => by_cases heq : t' = t <;> simp [Effect.record?, heq]
  | record e =>
    -- each record bears the id of the call that made it, and no two calls share one
    have he : e.process = (calls t').process := hown t' e (mem_ownLog.mpr hx)
    by_cases heq : t' = t
    · subst heq
      simp [Effect.record?, he]
    · have hne : (calls t').process ≠ (calls t).process := fun h => heq (hpid h)
      simp [Effect.record?, he, heq, hne]

/-- **Every interleaving** of any number of calls with different process ids, each
with any outcome of its command, records a well-formed history, and a call whose command is
empty for the numbers it draws, that is, whose operation is not supported, records
nothing. -/
theorem history_wellFormed (hpid : Function.Injective fun t => (calls t).process)
    (acts : List (τ × ClientInput)) :
    WellFormed (history (runClients calls acts).log) ∧
      ∀ t num1 num2, drawn (ownActs t acts) = some (num1, num2) →
        ((calls t).command num1 num2).isEmpty = true →
        ∀ e ∈ history (runClients calls acts).log, e.process ≠ (calls t).process := by
  have hlog := clientLog_run calls acts
  have hproc := history_filter hpid fun t e he => process_of_clientLog (hlog t) he
  constructor
  · refine wellFormed_of_processes fun p => ?_
    by_cases hp : ∃ t, (calls t).process = p
    · obtain ⟨t, rfl⟩ := hp
      rw [hproc t]
      exact processHistory_of_clientLog (hlog t)
    · -- nobody has this process id
      rw [List.filter_eq_nil_iff.mpr]
      · exact .none
      · intro e he hdec
        obtain ⟨⟨t, eff⟩, hmem, heff⟩ := List.mem_filterMap.mp he
        cases eff with
        | launch command w => cases heff
        | record e' =>
          obtain rfl := Option.some.inj heff
          refine hp ⟨t, ?_⟩
          rw [← of_decide_eq_true hdec]
          exact (process_of_clientLog (hlog t) (mem_ownLog.mpr hmem)).symm
  · intro t num1 num2 hdrawn hempty e he heq
    have ht : (runClients calls acts).loc t = .unsupported := by
      rw [runClients, loc_run]
      exact unsupported_of_drawn hdrawn hempty
    have hnone := clientLog_unsupported (ht ▸ hlog t)
    have hmem : e ∈ (history (runClients calls acts).log).filter
        (fun e => decide (e.process = (calls t).process)) :=
      List.mem_filter.mpr ⟨he, decide_eq_true heq⟩
    rw [hproc t, hnone] at hmem
    cases hmem

end Interleaving

/-- A read, a write and a compare-and-set of a system that has no such operation, with
process ids `0` to `2`. -/
def threeCalls (t : Fin 3) : ClientCall :=
  { process := t
    opName := [OpName.read, .write, .cas].get t
    nodeCount := 3
    getConfigureString := fun op _ _ => if op = .cas then "" else op.str
    parseReadResult := parseReadResult }

/-- The read overlaps the write. -/
def threeCallsRun : List (Fin 3 × ClientInput) :=
  [(1, .begin 7 0), (2, .begin 7 8), (0, .begin 0 0), (1, .spawn true), (2, .spawn true),
    (0, .spawn true), (0, .exit 0 "7\n".toList), (2, .exit 0 []), (1, .exit 0 [])]

/-- The read returns the value of the write, and the third call leaves no trace. -/
theorem history_wellFormed_threeCalls :
    history (runClients threeCalls threeCallsRun).log
      = [⟨1, .invoke, .write, .num 7⟩, ⟨0, .invoke, .read, .nil⟩, ⟨0, .ok, .read, .num 7⟩,
          ⟨1, .ok, .write, .num 7⟩] ∧
    WellFormed (history (runClients threeCalls threeCallsRun).log) ∧
    ∀ e ∈ history (runClients threeCalls threeCallsRun).log, e.process ≠ 2 := by
  have hok := history_wellFormed threeCalls (fun _ _ h => Fin.ext h) threeCallsRun
  exact ⟨by decide, hok.1, hok.2 2 7 8 (by decide) (by decide)⟩

/-! ## Records and the queue -/

theorem length_repr_le {n k : Nat} (hk : 0 < k) (h : n < 10 ^ k) : n.repr.toList.length ≤ k := by
  rw [Nat.toList_repr]
  exact Nat.toDigits_length 10 n k hk h

/-- A process id is an `int`, a number in a record an `int64_t` or a `uint32_t`. -/
structure HistoryEvent.InRange (e : HistoryEvent) : Prop where
  process : e.process < 2 ^ 31
  value : ∀ n, e.value = .num n → -2 ^ 63 ≤ n ∧ n < 2 ^ 63

theorem length_valueText {v : EventValue} (h : ∀ n, v = .num n → -2 ^ 63 ≤ n ∧ n < 2 ^ 63) :
    v.text.toList.length ≤ 23 := by
  unfold EventValue.text
  cases v with
  | nil => decide
  | num n =>
    obtain ⟨hlo, hhi⟩ := h n rfl
    -- nineteen digits and a sign hold every 64-bit number
    have hlen := length_repr_le (n := n.natAbs) (k := 19) (by decide) (by omega)
    show (toDecimalInt n).toList.length ≤ 23
    unfold toDecimalInt
    split
    · rw [String.toList_append, List.length_append]
      exact (Nat.add_le_add_left hlen 1).trans (by decide)
    · exact hlen.trans (by decide)
  | pair a b =>
    have ha := length_repr_le (n := a.toNat) (k := 10) (by decide)
      (a.toNat_lt.trans_le (by decide))
    have hb := length_repr_le (n := b.toNat) (k := 10) (by decide)
      (b.toNat_lt.trans_le (by decide))
    show ("[" ++ a.toNat.repr ++ " " ++ b.toNat.repr ++ "]").toList.length ≤ 23
    simp only [String.toList_append, List.length_append]
    have h1 : "[".toList.length = 1 := rfl
    have h2 : " ".toList.length = 1 := rfl
    have h3 : "]".toList.length = 1 := rfl
    omega

/-- **Every record fits** into a message of the queue. -/
theorem fits_text {e : HistoryEvent} (h : e.InRange) :
    (recordMessage e.text.toList).length ≤ maxQueueMessageSize := by
  -- the longest text of each field, and what stands between them
  have hp := length_repr_le (n := e.process) (k := 10) (by decide)
    (h.process.trans_le (by decide))
  have hv := length_valueText h.value
  have hty : e.type.text.toList.length ≤ 7 := by cases e.type <;> decide
  have hf : e.f.str.toList.length ≤ 5 := by cases e.f <;> decide
  unfold recordMessage HistoryEvent.text maxQueueMessageSize
  simp only [String.toList_append, List.length_append]
  have h0 : needRecordMessagePrefix.length = 13 := rfl
  have h1 : "\x7b:process ".toList.length = 10 := rfl
  have h2 : ", :type ".toList.length = 8 := rfl
  have h3 : ", :f :".toList.length = 6 := rfl
  have h4 : ", :value ".toList.length = 9 := rfl
  have h5 : "\x7d".toList.length = 1 := rfl
  omega

/-- A result that `std::stoll` returns is an `int64_t`. -/
theorem stoll_range {s : List Char} {n : Int} (h : stoll s = some n) :
    -2 ^ 63 ≤ n ∧ n < 2 ^ 63 := by
  unfold stoll at h
  extract_lets s' neg s'' ds m at h
  split at h
  · cases h
  · split at h
    · next hrange =>
      obtain rfl := Option.some.inj h
      exact hrange
    · cases h

/-- The records of a call, with the default parser, are in range. -/
theorem inRange_records {c : ClientCall} (hp : c.process < 2 ^ 31)
    (hparse : c.parseReadResult = parseReadResult) (num1 num2 : UInt32) :
    (c.invokeRecord num1 num2).InRange ∧
      ∀ output v, c.okValue num1 num2 output = some v → (c.okRecord v).InRange := by
  have hnum : ∀ n : Int, .num num1.toNat = EventValue.num n → -2 ^ 63 ≤ n ∧ n < 2 ^ 63 := by
    intro n hn
    obtain rfl := EventValue.num.inj hn
    have := num1.toNat_lt
    omega
  unfold ClientCall.invokeRecord ClientCall.invokeValue ClientCall.okRecord ClientCall.okValue
  cases c.opName with
  | read =>
    refine ⟨⟨hp, fun n hn => by cases hn⟩, fun output v hv => ⟨hp, fun n hn => ?_⟩⟩
    obtain ⟨m, hm, rfl⟩ := Option.map_eq_some_iff.mp hv
    obtain rfl := EventValue.num.inj hn
    -- `std::stoll` throws on what does not fit in 64 bits
    rw [hparse] at hm
    exact stoll_range hm
  | write =>
    refine ⟨⟨hp, hnum⟩, fun output v hv => ⟨hp, ?_⟩⟩
    obtain rfl := Option.some.inj hv
    exact hnum
  | cas =>
    refine ⟨⟨hp, fun n hn => by cases hn⟩, fun output v hv => ⟨hp, fun n hn => ?_⟩⟩
    obtain rfl := Option.some.inj hv
    cases hn

end DistFuzz.Harness
