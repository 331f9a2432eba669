import DistFuzz.Lib.Runs

/-!
# The operation log (event_control/src/main.cpp, core/src/dst_default_event.cpp)

Operators report what they do by messages to a queue. `event_control` polls the
queue and writes the messages that need to be recorded to `operation_log`; the
linearizability checker reads that file. `SIGTERM` clears `running`, which the
loop looks at before each poll. Then the file is closed and the queue removed,
with what is still in it.

Of the boost message queue the model assumes that it is FIFO and loses nothing. A
send to a full queue waits, so it is not done until there is room.

- `stepControl`: the receiver at each point of its loop, the senders and the
  signal, in any order. `out` is what the file holds, `sent` what it should hold.
- `LosesNothing`: the signal finds no record that will not be received any more,
  and no record arrives in time to be received after it.
- `operation_log_iff`: at exit the log is what it should be exactly in the runs
  all of whose steps are so; `exits_after_signal`: the receiver does exit.
-/

namespace DistFuzz.Harness

open DistFuzz.Lib

/-! ## Messages -/

def maxQueueNumber : Nat := 1000

def maxQueueMessageSize : Nat := 1000

def needRecordMessagePrefix : List Char := "NEED_RECORD: ".toList

/-- `std::string::find`: the position of the first occurrence. -/
def find (pat : List Char) : List Char → Option Nat
  | [] => if pat.isEmpty then some 0 else none
  | c :: s => if pat.isPrefixOf (c :: s) then some 0 else (find pat s).map (· + 1)

/-- What is written for a message, if it needs to be recorded. -/
def recordContent (s : List Char) : Option (List Char) :=
  (find needRecordMessagePrefix s).map fun n => s.drop (n + needRecordMessagePrefix.length)

/-- The message of `__dst_event_record`. -/
def recordMessage (s : List Char) : List Char := needRecordMessagePrefix ++ s

/-- A record is written as it was given, also if it contains the marker itself. -/
@[simp] theorem recordContent_recordMessage (s : List Char) :
    recordContent (recordMessage s) = some s := by
  have hfind : find needRecordMessagePrefix (recordMessage s) = some 0 := by
    unfold recordMessage
    show find needRecordMessagePrefix ('N' :: ("EED_RECORD: ".toList ++ s)) = some 0
    unfold find
    rw [if_pos]
    exact List.isPrefixOf_iff_prefix.mpr (List.prefix_append needRecordMessagePrefix s)
  unfold recordContent
  rw [hfind, Option.map_some, Nat.zero_add]
  exact congrArg some List.drop_left

/-! ## The receiver -/

/-- Where `main` is: before the queue is created, at `while (running)`, before
`try_receive`, in `sleep(1)`, with a message in hand, or done. -/
inductive ControlPhase where
  | creating
  | loopHead
  | receiving
  | sleeping
  | handling (s : List Char)
  | exited
deriving DecidableEq, Repr

/-- `event_control` and its queue. -/
structure EventControl where
  phase : ControlPhase
  running : Bool
  /-- The messages in the queue, `none` if there is no queue of that name. -/
  queue : Option (List (List Char))
  /-- The records written to `operation_log`. -/
  out : List (List Char)
  /-- The records whose send succeeded before the signal. -/
  sent : List (List Char)

/-- The receiver at its start. It is assumed that no queue is left by an earlier server, as
one that was killed leaves: a send before `main` has removed such a queue would succeed, and
its record would go with the queue. -/
def EventControl.init : EventControl := ⟨.creating, true, none, [], []⟩

/-- The receiver goes on to the next point. -/
def EventControl.proceed (c : EventControl) : EventControl :=
  match c.phase with
  | .creating => { c with phase := .loopHead, queue := some [] }
  | .loopHead =>
    if c.running then { c with phase := .receiving }
    else { c with phase := .exited, queue := none }
  | .receiving =>
    match c.queue with
    | some (s :: rest) => { c with phase := .handling s, queue := some rest }
    | _ => { c with phase := .sleeping }
  | .sleeping => { c with phase := .loopHead }
  | .handling s => { c with phase := .loopHead, out := c.out ++ (recordContent s).toList }
  | .exited => c

/-- `__dst_event_trigger` succeeds: the queue can be opened, the message is not
too long, and there is room. -/
def EventControl.accepts (c : EventControl) (s : List Char) : Bool :=
  match c.queue with
  | none => false
  | some q => s.length ≤ maxQueueMessageSize && q.length < maxQueueNumber

/-- `__dst_event_trigger`. -/
def EventControl.trigger (c : EventControl) (s : List Char) : EventControl :=
  if c.accepts s then
    { c with
      queue := c.queue.map (· ++ [s])
      sent := if c.running then c.sent ++ (recordContent s).toList else c.sent }
  else c

/-- The receiver moves on, `SIGTERM` arrives, or some process sends a message. -/
inductive ControlInput where
  | proceed
  | sigterm
  | trigger (s : List Char)
deriving DecidableEq, Repr

def stepControl (c : EventControl) : ControlInput → EventControl
  | .proceed => c.proceed
  | .sigterm => { c with running := false }
  | .trigger s => c.trigger s

/-! ## What will be recorded -/

/-- The records in a list of messages. -/
def records (q : List (List Char)) : List (List Char) := q.filterMap recordContent

/-- The messages in the queue. -/
def EventControl.messages (c : EventControl) : List (List Char) := c.queue.getD []

/-- The message the receiver has in hand. -/
def EventControl.inHand (c : EventControl) : List (List Char) :=
  match c.phase with
  | .handling s => [s]
  | _ => []

/-- The messages that are received even if `running` is cleared now: past the
check, that is the first one. -/
def EventControl.upcoming (c : EventControl) : List (List Char) :=
  if c.phase = .receiving then c.messages.take 1 else []

/-- The messages that are not. -/
def EventControl.leftBehind (c : EventControl) : List (List Char) :=
  if c.phase = .receiving then c.messages.drop 1 else c.messages

/-- What the log holds at exit if `running` is cleared now and nothing is sent. -/
def EventControl.final (c : EventControl) : List (List Char) :=
  c.out ++ records (c.inHand ++ c.upcoming)

/-- The step loses no record and adds none: a signal finds only messages in the
queue that are still received or not recorded, and no record is sent after it
into the empty queue that the receiver is about to poll. -/
def LosesNothing (c : EventControl) : ControlInput → Prop
  | .proceed => True
  | .sigterm => c.running = true → records c.leftBehind = []
  | .trigger s => c.running = false → c.phase = .receiving → c.queue = some [] →
      s.length ≤ maxQueueMessageSize → recordContent s = none

theorem records_append (q q' : List (List Char)) : records (q ++ q') = records q ++ records q' :=
  List.filterMap_append

theorem records_singleton (s : List Char) : records [s] = (recordContent s).toList := by
  unfold records
  rw [List.filterMap_cons]
  cases recordContent s <;> rfl

theorem upcoming_append_leftBehind (c : EventControl) :
    c.upcoming ++ c.leftBehind = c.messages := by
  unfold EventControl.upcoming EventControl.leftBehind
  split
  · exact List.take_append_drop ..
  · exact List.nil_append _

/-- What holds in every reachable state: while the program runs nothing is lost,
and afterwards an empty queue about to be polled means that all is recorded. -/
structure ControlInv (c : EventControl) : Prop where
  balance : c.running = true → c.out ++ records (c.inHand ++ c.messages) = c.sent
  empty : c.running = false → c.phase = .receiving → c.queue = some [] → c.out = c.sent
  noQueue : c.phase = .creating ∨ c.phase = .exited → c.queue = none
  exited : c.phase = .exited → c.running = false

theorem controlInv_init : ControlInv .init where
  balance _ := rfl
  empty h := absurd h (by decide)
  noQueue _ := rfl
  exited h := absurd h (by decide)

/-- A message is accepted by a queue that is there, or nothing happens. -/
theorem trigger_cases (c : EventControl) (s : List Char) :
    (c.accepts s = false ∧ c.trigger s = c) ∨
      ∃ q, c.queue = some q ∧ s.length ≤ maxQueueMessageSize ∧
      c.trigger s =
        { c with
          queue := some (q ++ [s])
          sent := if c.running then c.sent ++ (recordContent s).toList else c.sent } := by
  cases hacc : c.accepts s with
  | false =>
    unfold EventControl.trigger
    rw [hacc]
    exact .inl ⟨rfl, rfl⟩
  | true =>
    unfold EventControl.trigger
    rw [if_pos hacc]
    unfold EventControl.accepts at hacc
    cases hq : c.queue with
    | none =>
      rw [hq] at hacc
      exact absurd hacc Bool.false_ne_true
    | some q =>
      rw [hq] at hacc
      exact .inr ⟨q, rfl, of_decide_eq_true (Bool.and_eq_true_iff.mp hacc).1, rfl⟩

theorem controlInv_trigger {c : EventControl} (h : ControlInv c) (s : List Char) :
    ControlInv (c.trigger s) := by
  rcases trigger_cases c s with ⟨-, heq⟩ | ⟨q, hq, -, heq⟩
  · rw [heq]
    exact h
  · rw [heq]
    refine { balance := fun hrun => ?_, empty := fun _ _ he => ?_, noQueue := fun hph => ?_,
             exited := h.exited }
    · have hbal := h.balance hrun
      unfold EventControl.messages at hbal ⊢
      rw [hq] at hbal
      dsimp only at hrun hbal ⊢
      rw [if_pos hrun, ← hbal, Option.getD_some, Option.getD_some, ← records_singleton,
        List.append_assoc c.out, ← records_append, List.append_assoc]
      rfl
    · exact absurd (Option.some.inj he) (by simp)
    · exact absurd (hq.symm.trans (h.noQueue hph)) (by simp)

theorem controlInv_sigterm {c : EventControl} (h : ControlInv c) :
    ControlInv { c with running := false } where
  balance hrun := absurd hrun (by simp)
  empty _ hph he := by
    cases hrun : c.running with
    | false => exact h.empty hrun hph he
    | true =>
      have hbal := h.balance hrun
      unfold EventControl.inHand EventControl.messages at hbal
      rw [show c.phase = .receiving from hph, show c.queue = some [] from he] at hbal
      exact (List.append_nil _).symm.trans hbal
  noQueue := h.noQueue
  exited _ := rfl

/-- Inside the loop, the balance is all there is to check. -/
theorem controlInv_of_balance {c : EventControl}
    (hbal : c.running = true → c.out ++ records (c.inHand ++ c.messages) = c.sent)
    (hloop : c.phase ≠ .creating ∧ c.phase ≠ .exited)
    (hrecv : c.phase = .receiving → c.running = true) : ControlInv c where
  balance := hbal
  empty hrun hph := absurd ((hrecv hph).symm.trans hrun) (by decide)
  noQueue hph := (hph.elim hloop.1 hloop.2).elim
  exited hph := absurd hph hloop.2

theorem controlInv_proceed {c : EventControl} (h : ControlInv c) : ControlInv c.proceed := by
  obtain ⟨phase, running, queue, out, sent⟩ := c
  have hbal := h.balance
  unfold EventControl.proceed
  cases phase with
  | creating =>
    -- the queue is created empty
    obtain rfl : queue = none := h.noQueue (.inl rfl)
    exact controlInv_of_balance hbal (by simp) (by simp)
  | loopHead =>
    dsimp only
    split
    · next hrun => exact controlInv_of_balance hbal (by simp) fun _ => hrun
    · next hrun =>
      exact
        { balance := fun h => absurd h hrun
          empty := fun _ hph => absurd hph (by simp)
          noQueue := fun _ => rfl
          exited := fun _ => Bool.eq_false_of_not_eq_true hrun }
  | receiving =>
    dsimp only
    split
    -- the message is in hand now
    · exact controlInv_of_balance hbal (by simp) (by simp)
    · exact controlInv_of_balance hbal (by simp) (by simp)
  | sleeping => exact controlInv_of_balance hbal (by simp) (by simp)
  | handling s =>
    refine controlInv_of_balance (fun hrun => ?_) (by simp) (by simp)
    show (out ++ (recordContent s).toList) ++ records (queue.getD []) = sent
    rw [← records_singleton, List.append_assoc, ← records_append]
    exact hbal hrun
  | exited => exact h

theorem controlInv_step (c : EventControl) (i : ControlInput) (h : ControlInv c) :
    ControlInv (stepControl c i) := by
  cases i with
  | proceed => exact controlInv_proceed h
  | sigterm => exact controlInv_sigterm h
  | trigger s => exact controlInv_trigger h s

/-! ## The log at exit -/

/-- Once the signal has arrived, the log is bound to be what it should be. -/
def Complete (c : EventControl) : Prop := c.running = false → c.final = c.sent

theorem final_proceed {c : EventControl} (hrun : c.running = false) :
    c.proceed.final = c.final := by
  obtain ⟨phase, running, queue, out, sent⟩ := c
  obtain rfl := hrun
  unfold EventControl.proceed
  cases phase with
  | creating => rfl
  | loopHead => rfl
  | receiving =>
    cases queue with
    | none => rfl
    | some q =>
      cases q with
      | nil => rfl
      | cons s rest => rfl
  | sleeping => rfl
  | handling s =>
    show (out ++ (recordContent s).toList) ++ records ([] ++ []) = out ++ records ([s] ++ [])
    rw [List.append_nil, List.append_nil, records_singleton]
    exact List.append_nil _
  | exited => rfl

theorem complete_proceed (c : EventControl) :
    Complete c.proceed ↔ Complete c := by
  have hframe : c.proceed.running = c.running ∧ c.proceed.sent = c.sent := by
    unfold EventControl.proceed
    split
    · exact ⟨rfl, rfl⟩
    · split <;> exact ⟨rfl, rfl⟩
    · split <;> exact ⟨rfl, rfl⟩
    · exact ⟨rfl, rfl⟩
    · exact ⟨rfl, rfl⟩
    · exact ⟨rfl, rfl⟩
  unfold Complete
  rw [hframe.1, hframe.2]
  exact forall_congr' fun hrun => by rw [final_proceed hrun]

/-- A signal makes the log complete exactly if no record is left behind. -/
theorem complete_sigterm {c : EventControl} (h : ControlInv c) :
    Complete { c with running := false } ↔ Complete c ∧ LosesNothing c .sigterm := by
  have hfinal : ({ c with running := false } : EventControl).final = c.final := rfl
  unfold Complete LosesNothing
  -- a second signal changes nothing; the first one leaves behind what the loop would have read
  cases hrun : c.running with
  | false =>
    rw [hfinal]
    exact ⟨fun hc => ⟨hc, fun h => absurd h (by decide)⟩, fun hc => hc.1⟩
  | true =>
    have hbal := h.balance hrun
    rw [← upcoming_append_leftBehind, ← List.append_assoc, records_append,
      ← List.append_assoc] at hbal
    change c.final ++ records c.leftBehind = c.sent at hbal
    rw [hfinal]
    constructor
    · intro hc
      refine ⟨fun h => absurd h (by decide), fun _ => ?_⟩
      exact List.self_eq_append_right.mp ((hc rfl).trans hbal.symm)
    · intro hc _
      show c.final = c.sent
      rw [← hbal, hc.2 rfl, List.append_nil]

/-- A message into the empty queue that is polled next is the one received. -/
theorem final_enqueue_polled {c : EventControl} (hph : c.phase = .receiving) (s : List Char) :
    ({ c with queue := some [s] } : EventControl).final = c.out ++ (recordContent s).toList := by
  rw [← records_singleton]
  unfold EventControl.final EventControl.upcoming EventControl.inHand
  dsimp only
  rw [hph, if_pos rfl]
  rfl

theorem final_of_polled {c : EventControl} (hph : c.phase = .receiving)
    (hq : c.queue = some []) : c.final = c.out := by
  unfold EventControl.final EventControl.upcoming EventControl.inHand EventControl.messages
  rw [hph, hq, if_pos rfl]
  exact List.append_nil _

/-- Any other message comes too late to be received before the exit. -/
theorem final_enqueue_other {c : EventControl} {q : List (List Char)} (hq : c.queue = some q)
    (hpoll : ¬(c.phase = .receiving ∧ q = [])) (s : List Char) :
    ({ c with queue := some (q ++ [s]) } : EventControl).final = c.final := by
  unfold EventControl.final EventControl.upcoming EventControl.messages
  by_cases hph : c.phase = .receiving
  · obtain ⟨m, rest, rfl⟩ := List.exists_cons_of_ne_nil fun hnil => hpoll ⟨hph, hnil⟩
    rw [hq, if_pos hph, if_pos hph]
    rfl
  · rw [if_neg hph, if_neg hph]
    rfl

/-- Of the messages sent after the signal, only one into an empty queue that is
polled next is received. -/
theorem complete_trigger {c : EventControl} (h : ControlInv c) (s : List Char) :
    Complete (c.trigger s) ↔ Complete c ∧ LosesNothing c (.trigger s) := by
  rcases trigger_cases c s with ⟨hacc, heq⟩ | ⟨q, hq, hlen, heq⟩
  · rw [heq]
    refine (and_iff_left ?_).symm
    intro _ _ hempty hlen
    unfold EventControl.accepts at hacc
    rw [hempty, decide_eq_true hlen] at hacc
    exact absurd hacc (by decide)
  · rw [heq]
    unfold Complete LosesNothing
    cases hrun : c.running with
    | true => simp
    | false =>
      by_cases hpoll : c.phase = .receiving ∧ q = []
      · -- the message is received, and all before it is recorded
        obtain ⟨hph, rfl⟩ := hpoll
        rw [final_of_polled hph hq]
        change (_ → ({ c with queue := some [s] } : EventControl).final = c.sent) ↔ _
        rw [final_enqueue_polled hph, ← h.empty hrun hph hq]
        constructor
        · intro hc
          refine ⟨fun _ => rfl, fun _ _ _ _ => ?_⟩
          exact Option.toList_eq_nil_iff.mp (List.append_right_eq_self.mp (hc rfl))
        · rintro ⟨-, hnone⟩ -
          rw [hnone rfl hph hq hlen]
          exact List.append_nil _
      · have hvac : (false = false → c.phase = .receiving → c.queue = some [] →
            s.length ≤ maxQueueMessageSize → recordContent s = none) := by
          intro _ hph he
          exact absurd ⟨hph, Option.some.inj (hq.symm.trans he)⟩ hpoll
        rw [and_iff_left hvac, ← final_enqueue_other hq hpoll s]
        exact Iff.rfl

theorem complete_step (c : EventControl) (i : ControlInput) (h : ControlInv c) :
    Complete (stepControl c i) ↔ Complete c ∧ LosesNothing c i := by
  cases i with
  | proceed => exact (complete_proceed c).trans (and_iff_left trivial).symm
  | sigterm => exact complete_sigterm h
  | trigger s => exact complete_trigger h s

/-- **The operation log** that is there at exit holds exactly the records whose
send succeeded before the signal, each once and in the order of the queue, if and
only if no step loses or adds a record. -/
theorem operation_log_iff (inputs : List ControlInput)
    (hexit : (run stepControl .init inputs).phase = .exited) :
    (run stepControl .init inputs).out = (run stepControl .init inputs).sent ↔
      Steps stepControl LosesNothing .init inputs := by
  have hinv := run_inv' ControlInv controlInv_step controlInv_init inputs
  have hfinal : (run stepControl .init inputs).final = (run stepControl .init inputs).out := by
    unfold EventControl.final EventControl.inHand EventControl.upcoming
    rw [hexit]
    exact List.append_nil _
  have hgood :=
    good_run_iff ControlInv Complete controlInv_step complete_step controlInv_init inputs
  rw [and_iff_right (show Complete .init from fun h => absurd h (by decide))] at hgood
  rw [← hgood]
  unfold Complete
  rw [hfinal]
  exact ⟨fun h _ => h, fun h => h (hinv.exited hexit)⟩

/-- A record that is received before the signal is in the log. -/
def recordedRun : List ControlInput :=
  [.proceed, .trigger (recordMessage "a".toList), .proceed, .proceed, .proceed, .sigterm, .proceed]

theorem operation_log_recordedRun :
    (run stepControl .init recordedRun).phase = .exited ∧
      ((run stepControl .init recordedRun).out = (run stepControl .init recordedRun).sent ↔
        Steps stepControl LosesNothing .init recordedRun) :=
  ⟨by decide, operation_log_iff recordedRun (by decide)⟩

/-- A record whose send succeeds while the receiver sleeps is lost if the signal
arrives before the receiver polls again. -/
def sleepingRun : List ControlInput :=
  [.proceed, .proceed, .proceed, .trigger (recordMessage "a".toList), .sigterm, .proceed, .proceed]

theorem operation_log_sleepingRun :
    (run stepControl .init sleepingRun).phase = .exited ∧
      (run stepControl .init sleepingRun).sent = ["a".toList] ∧
      (run stepControl .init sleepingRun).out = [] := by
  decide

/-! ## The receiver exits -/

/-- How many points the receiver still passes once `running` is cleared. -/
def ControlPhase.rank : ControlPhase → Nat
  | .creating => 2
  | .loopHead => 1
  | .receiving => 3
  | .sleeping => 2
  | .handling _ => 2
  | .exited => 0

theorem rank_le_three (p : ControlPhase) : p.rank ≤ 3 := by
  cases p <;> simp [ControlPhase.rank]

theorem exited_of_rank_eq_zero {p : ControlPhase} (h : p.rank = 0) : p = .exited := by
  cases p with
  | exited => rfl
  | creating => exact absurd h (Nat.succ_ne_zero _)
  | loopHead => exact absurd h (Nat.succ_ne_zero _)
  | receiving => exact absurd h (Nat.succ_ne_zero _)
  | sleeping => exact absurd h (Nat.succ_ne_zero _)
  | handling s => exact absurd h (Nat.succ_ne_zero _)

theorem rank_proceed {c : EventControl} (hrun : c.running = false) :
    c.proceed.phase.rank = c.phase.rank - 1 := by
  obtain ⟨phase, running, queue, out, sent⟩ := c
  obtain rfl := hrun
  unfold EventControl.proceed
  cases phase with
  | receiving =>
    dsimp only
    split <;> rfl
  | creating => rfl
  | loopHead => rfl
  | sleeping => rfl
  | handling s => rfl
  | exited => rfl

/-- **After the signal** the receiver exits in three steps of its own, whatever is
sent meanwhile. -/
theorem exits_after_signal {c : EventControl} (hrun : c.running = false)
    {inputs : List ControlInput} (hsteps : 3 ≤ inputs.count .proceed) :
    (run stepControl c inputs).phase = .exited := by
  -- the rank counts the steps to the exit, and only the receiver's own steps lower it
  have hrank : ∀ inputs : List ControlInput, ∀ c : EventControl, c.running = false →
      (run stepControl c inputs).phase.rank = c.phase.rank - inputs.count .proceed := by
    intro inputs
    induction inputs with
    | nil => exact fun _ _ => rfl
    | cons i inputs ih =>
      intro c hrun
      rw [run_cons]
      cases i with
      | proceed =>
        have hrun' : c.proceed.running = false := by
          unfold EventControl.proceed
          repeat' split
          all_goals exact hrun
        rw [List.count_cons_self, stepControl, ih _ hrun', rank_proceed hrun]
        omega
      | sigterm =>
        rw [List.count_cons_of_ne (by decide), stepControl]
        exact ih _ rfl
      | trigger s =>
        rw [List.count_cons_of_ne (by simp), stepControl]
        rcases trigger_cases c s with ⟨-, heq⟩ | ⟨q, -, -, heq⟩
        · rw [heq]
          exact ih c hrun
        · rw [heq]
          exact ih _ hrun
  refine exited_of_rank_eq_zero ?_
  rw [hrank inputs c hrun]
  have hle := rank_le_three c.phase
  omega

end DistFuzz.Harness
