import DistFuzz.Injector.Decode
import DistFuzz.Injector.SyscallStop
import DistFuzz.Lib.Flags

/-!
# The phase flag of a system call (strace/src/defs.h:327–340, dst_fuzz.c:336–392)

The comment on `TCB_INSYSCALL` says who writes the bit: `syscall_entering_finish`
sets it, `syscall_exiting_finish` clears it. The injector, which runs in the
entering half, is a third writer whenever it hands back a return value: from then
on the rest of the entering half takes the stop for an exit.

- `FlagWrite.Ok`: what a write may do to the bit, by the function that makes it.
- `HandsBackValue`: the injector decides for a fault that has a return value;
  `enter_flags_iff`: that is when it changes a flag. `DELAY` sets `TCB_ATTACHED`,
  which every tracee has anyway.
- `Fine`: all writes of a half so far are in order.
- `writesOk_iff`, `phase_flag_iff`: the writes are in order at a stop, and all
  along a run, exactly if no stop reaches the injector with such a decision.
-/

namespace DistFuzz.Injector

open DistFuzz.Lib

/-! ## What a write may do -/

/-- A write in order: the two finishing functions flip `TCB_INSYSCALL`, the
functions of the entering half find and leave it clear, the injector changes no
flag at all, and the others leave the bit as it is. -/
def FlagWrite.Ok (w : FlagWrite) : Prop :=
  match w.writer with
  | .syscallEnteringFinish => w.before &&& tcbInsyscall = 0 ∧ w.after &&& tcbInsyscall ≠ 0
  | .syscallExitingFinish => w.before &&& tcbInsyscall ≠ 0 ∧ w.after &&& tcbInsyscall = 0
  | .dstFuzzSyscallEnter => w.before &&& tcbInsyscall = 0 ∧ w.after = w.before
  | .syscallEnteringTrace => w.before &&& tcbInsyscall = 0 ∧ w.after &&& tcbInsyscall = 0
  | .tamperWithSyscallEntering => w.before &&& tcbInsyscall = 0 ∧ w.after &&& tcbInsyscall = 0
  | .afterSuccessfulAttach => w.after &&& tcbInsyscall = w.before &&& tcbInsyscall
  | .dispatchEvent => w.after &&& tcbInsyscall = w.before &&& tcbInsyscall
  | .syscallExitingDecode => w.after &&& tcbInsyscall = w.before &&& tcbInsyscall
  | .syscallExitingTrace => w.after &&& tcbInsyscall = w.before &&& tcbInsyscall

/-- All writes that an input makes are in order. -/
def WritesOk (env : InjectorEnv) (s : Strace) (input : StraceInput) : Prop :=
  ∀ w ∈ flagWrites env s input, w.Ok

/-- The events that hand a return value to the tracee. -/
def InjectEvent.ReturnsValue (ev : InjectEvent) : Prop :=
  ev = .fail ∨ ev = .lost ∨ ev = .netpart

/-- The next byte picks `FAIL` or `LOST`, or it points past `events` and the
memory there holds an event that returns a value. -/
def PicksValue (isSend isFile : Bool) (r : RandomFile) (past : Option InjectEvent) : Prop :=
  drawIndex isSend isFile r = 1 ∨ drawIndex isSend isFile r = 2 ∨
    (drawIndex isSend isFile r = 4 ∧ ∃ ev, past = some ev ∧ ev.ReturnsValue)

/-- The same with the byte that is read first for a socket during a partition: an
odd one has the call fail. -/
def DrawsValue (isSend isFile : Bool) (r : RandomFile) (netPartition : Bool)
    (past : Option InjectEvent) : Prop :=
  if netPartition && !isFile then
    r.getRandomUint8.1 % 2 ≠ 0 ∨ PicksValue isSend isFile r.getRandomUint8.2 past
  else PicksValue isSend isFile r past

/-- The injector meets a call it does not exempt with a fault byte, the bytes
after it pick an event that returns a value, and its table of return values has
room (otherwise it dies). -/
structure HandsBackValue (env : InjectorEnv) (s : InjectorState) (c : Call) : Prop where
  alive : s.died = false
  notPending : s.storedRegs = none
  faults : env.noFault = false
  faultByte : 50 ≤ s.random.getRandomUint8.1
  event : ∃ isSend source kind, syscallKind c.tcp.scno = some (isSend, source) ∧
    screen env c = some kind ∧
    DrawsValue isSend kind.isFile s.random.getRandomUint8.2 s.netPartition c.pastEvents
  room : s.retvalVec.length < 2 ^ 16

/-- The stop is an enter stop whose call is not filtered out. -/
structure ReachesInjector (tcp : Tcb) (stop : SyscallStop) : Prop where
  entering : tcp.entering = true
  decoded : stop.decoded = .ok
  visible : tcp.has tcbHideLog = true → stop.isExec = true
  traced : stop.qualFlags &&& qualTrace ≠ 0
  pathMatch : stop.pathMatch = true

/-- A stop at which the injector decides for a fault with a return value. -/
def InjectsValue (env : InjectorEnv) (s : Strace) (input : StraceInput) : Prop :=
  ∃ tcp stop, s.tcbs input.tid = some tcp ∧
    (input = .syscallStop input.tid stop ∨ input = .execveStop input.tid stop) ∧
    ReachesInjector tcp stop ∧ HandsBackValue env s.injector stop.call

/-! ## What the injector does to the flags -/

theorem picksValue_iff (isSend isFile : Bool) (r : RandomFile) (past : Option InjectEvent)
    {ch : Choice} (hch : ch.index = some (drawIndex isSend isFile r)) :
    PicksValue isSend isFile r past ↔ ∃ ev, ch.event past = some ev ∧ ev.ReturnsValue := by
  have hlt : drawIndex isSend isFile r < 5 := by
    refine (Nat.mod_lt _ ?_).trans_le ?_ <;> cases isSend <;> cases isFile <;> decide
  unfold PicksValue Choice.event
  rw [hch]
  generalize drawIndex isSend isFile r = i at hlt
  -- one case per entry of the table, and one for the entry past it
  match i, hlt with
  | 0, _ => simp [events, InjectEvent.ReturnsValue]
  | 1, _ => simp [events, InjectEvent.ReturnsValue]
  | 2, _ => simp [events, InjectEvent.ReturnsValue]
  | 3, _ => simp [events, InjectEvent.ReturnsValue]
  | 4, _ => simp [events]

/-- The event that is picked, in terms of the bytes. -/
theorem drawsValue_iff (isSend : Bool) (kind : FileKind) (r : RandomFile) (netPartition : Bool)
    (past : Option InjectEvent) :
    DrawsValue isSend kind.isFile r netPartition past ↔
      ∃ ev, (chooseEvent isSend kind r netPartition).event past = some ev ∧ ev.ReturnsValue := by
  unfold DrawsValue chooseEvent
  split
  · dsimp only
    split
    · next heal =>
      rw [← picksValue_iff isSend kind.isFile r.getRandomUint8.2 past rfl]
      exact ⟨fun h => h.resolve_left fun hne => hne (beq_iff_eq.mp heal), .inr⟩
    · next heal =>
      refine ⟨fun _ => ⟨.netpart, rfl, .inr (.inr rfl)⟩, fun _ => .inl fun h => heal ?_⟩
      exact beq_iff_eq.mpr h
  · exact picksValue_iff isSend kind.isFile r past rfl

/-- The bits an event ORs into `tcp->flags`. -/
def eventMask : Option InjectEvent → UInt32
  | some .delay => injectFDelayEnter.toUInt32
  | some .fail => injectFRetval.toUInt32
  | some .lost => injectFRetval.toUInt32
  | some .netpart => injectFRetval.toUInt32
  | some .dup => 0
  | some .numInjectEvents => 0
  | none => 0

theorem eventMask_of_returnsValue {ev : InjectEvent} (h : ev.ReturnsValue) :
    eventMask (some ev) = tcbInsyscall := by
  rcases h with rfl | rfl | rfl <;> rfl

theorem injectRetval_flags {s s' : InjectorState} {tcp tcp' : Tcb} {rval : Int64}
    (h : injectRetval s tcp rval = some (s', tcp')) :
    tcp'.flags = tcp.flags ||| injectFRetval.toUInt32 := by
  rw [injectRetval, Option.map_eq_some_iff] at h
  obtain ⟨slot, -, heq⟩ := h
  obtain ⟨-, rfl⟩ := Prod.mk.inj heq
  rfl

theorem applyEvent_flags {s s' : InjectorState} {c : Call} {kind : FileKind} {length : UInt64}
    {errorCodes : List Int64} {ev : Option InjectEvent} {tcp : Tcb}
    (h : applyEvent s c kind length errorCodes ev = some (s', tcp)) :
    tcp.flags = c.tcp.flags ||| eventMask ev := by
  rcases ev with _ | ev
  · obtain ⟨-, rfl⟩ := Prod.mk.inj (Option.some.inj h)
    exact UInt32.or_zero.symm
  · cases ev with
    | delay =>
      rw [applyEvent, injectDelay, Option.map_eq_some_iff] at h
      obtain ⟨slot, -, heq⟩ := h
      obtain ⟨-, rfl⟩ := Prod.mk.inj heq
      rfl
    | fail =>
      rw [applyEvent, injectFail] at h
      split at h
      · exact injectRetval_flags h
      · exact injectRetval_flags h
    | lost => exact injectRetval_flags h
    | dup =>
      obtain ⟨-, rfl⟩ := Prod.mk.inj (Option.some.inj h)
      exact UInt32.or_zero.symm
    | netpart => exact injectRetval_flags h
    | numInjectEvents =>
      obtain ⟨-, rfl⟩ := Prod.mk.inj (Option.some.inj h)
      exact UInt32.or_zero.symm

/-- A return value can be handed over exactly if the table has room. -/
theorem injectRetval_isSome (s : InjectorState) (tcp : Tcb) (rval : Int64) :
    (injectRetval s tcp rval).isSome = true ↔ s.retvalVec.length < 2 ^ 16 := by
  have hidx : (UInt16.ofNat s.retvalVec.length).toNat = s.retvalVec.length % 2 ^ 16 :=
    UInt16.toNat_ofNat' ..
  rw [injectRetval, Option.isSome_map, retvalNew, hidx]
  by_cases hlt : s.retvalVec.length < 2 ^ 16
  · rw [Nat.mod_eq_of_lt hlt, if_neg (Nat.lt_irrefl _)]
    exact ⟨fun _ => hlt, fun _ => rfl⟩
  · rw [if_pos ((Nat.mod_lt _ (by omega)).trans_le (by omega))]
    exact ⟨fun h => absurd h (by simp), fun h => absurd h hlt⟩

theorem applyEvent_isSome {s : InjectorState} {ev : InjectEvent} (hev : ev.ReturnsValue)
    (c : Call) (kind : FileKind) (length : UInt64) (errorCodes : List Int64) :
    (applyEvent s c kind length errorCodes (some ev)).isSome = true
      ↔ s.retvalVec.length < 2 ^ 16 := by
  rcases hev with rfl | rfl | rfl
  · rw [applyEvent, injectFail]
    split
    · exact injectRetval_isSome ..
    · exact injectRetval_isSome ..
  · exact injectRetval_isSome ..
  · exact injectRetval_isSome ..

/-- An injected fault leaves the flags as they were, or sets the bits of its
event. -/
theorem injectFault_flags (s : InjectorState) (c : Call) (kind : FileKind) (isSend : Bool)
    (length : UInt64) (errorCodes : List Int64) :
    (injectFault s c kind isSend length errorCodes).tcp.flags =
      if (applyEvent
          { s with
            random := (chooseEvent isSend kind s.random s.netPartition).random
            netPartition := (chooseEvent isSend kind s.random s.netPartition).netPartition }
          c kind length errorCodes
          ((chooseEvent isSend kind s.random s.netPartition).event c.pastEvents)).isSome = true
      then c.tcp.flags
        ||| eventMask ((chooseEvent isSend kind s.random s.netPartition).event c.pastEvents)
      else c.tcp.flags := by
  rw [injectFault]
  dsimp only
  split
  · next happ => rw [happ, if_neg (by simp)]
  · next s' tcp happ =>
    rw [happ, if_pos (by simp)]
    exact applyEvent_flags happ

/-- An event that returns no value leaves the flags of an attached tracee alone. -/
theorem or_eventMask {x : UInt32} (hatt : x &&& tcbAttached = tcbAttached)
    {o : Option InjectEvent} (ho : ∀ ev, o = some ev → ¬ev.ReturnsValue) :
    x ||| eventMask o = x := by
  rcases o with _ | ev
  · exact UInt32.or_zero
  · cases ev with
    | delay => exact or_eq_self hatt
    | fail => exact absurd (.inl rfl) (ho _ rfl)
    | lost => exact absurd (.inr (.inl rfl)) (ho _ rfl)
    | dup => exact UInt32.or_zero
    | netpart => exact absurd (.inr (.inr rfl)) (ho _ rfl)
    | numInjectEvents => exact UInt32.or_zero

/-- **The injector changes a flag** of an attached tracee in its entering half
exactly when it hands back a value. -/
theorem enter_flags_iff {env : InjectorEnv} {s : InjectorState} {c : Call}
    (hatt : c.tcp.flags &&& tcbAttached = tcbAttached)
    (hent : c.tcp.flags &&& tcbInsyscall = 0) :
    (dstFuzzSyscallEnter env s c).tcp.flags = c.tcp.flags ↔ ¬HandsBackValue env s c := by
  constructor
  · intro heq hb
    obtain ⟨isSend, source, kind, hsys, hscr, hdraw⟩ := hb.event
    obtain ⟨ev, hev, hret⟩ := (drawsValue_iff ..).mp hdraw
    have henter := enter_of_drawn hb.alive hb.notPending hsys hscr hb.faults hb.faultByte
    rw [henter, injectFault_flags, hev, if_pos, eventMask_of_returnsValue hret] at heq
    swap
    · exact (applyEvent_isSome hret ..).mpr hb.room
    -- the bit was clear before and is set now
    have hset := or_and_self c.tcp.flags tcbInsyscall
    rw [heq, hent] at hset
    exact absurd hset (by decide)
  · intro hno
    rcases enter_cases env s c with h | ⟨regs, -, -, -, h⟩ | ⟨s', kind, isSend, source, -, h⟩ |
      ⟨kind, isSend, source, hregs, hdied, hsys, hscr, hnf, hb, h⟩
    · rw [h]
    · rw [h]
    · rw [h]
      rfl
    · rw [h, injectFault_flags, ite_eq_right_iff]
      intro happ
      refine or_eventMask hatt fun ev hev hret => hno ?_
      rw [hev, applyEvent_isSome hret] at happ
      have hdraw := (drawsValue_iff ..).mpr ⟨ev, hev, hret⟩
      exact ⟨hdied, hregs, hnf, hb, ⟨isSend, source, kind, hsys, hscr, hdraw⟩, happ⟩

/-! ## Halves in order -/

/-- The writes so far are in order, `TCB_INSYSCALL` is as `b` says, and the
tracee is attached. -/
structure Fine (b : UInt32) (h : Half) : Prop where
  writes : ∀ w ∈ h.writes, w.Ok
  insyscall : h.tcp.flags &&& tcbInsyscall = b
  attached : h.tcp.flags &&& tcbAttached = tcbAttached

/-- One more write, if it is in order. -/
theorem Fine.write {b b' : UInt32} {h : Half} (hf : Fine b h) {w : Writer}
    {f : UInt32 → UInt32} (hin : f h.tcp.flags &&& tcbInsyscall = b') (hatt : Keeps tcbAttached f)
    (hok : FlagWrite.Ok ⟨w, h.tcp.flags, f h.tcp.flags⟩) : Fine b' (h.write w f) := by
  refine { writes := fun w' hw' => ?_, insyscall := hin,
           attached := (hatt _).trans hf.attached }
  rcases List.mem_append.mp hw' with hold | hnew
  · exact hf.writes w' hold
  · obtain rfl := List.mem_singleton.mp hnew
    exact hok

/-- The two flags that say where a tracee is. -/
def phaseBits : UInt32 := tcbInsyscall ||| tcbAttached

theorem keeps_insyscall {f : UInt32 → UInt32} (h : Keeps phaseBits f) : Keeps tcbInsyscall f :=
  h.mono (by decide)

theorem keeps_attached {f : UInt32 → UInt32} (h : Keeps phaseBits f) : Keeps tcbAttached f :=
  h.mono (by decide)

/-- A write of the entering half that keeps the two. -/
theorem Fine.writeEntering {h : Half} (hf : Fine 0 h) {w : Writer}
    (hw : w = .syscallEnteringTrace ∨ w = .tamperWithSyscallEntering) {f : UInt32 → UInt32}
    (hkeep : Keeps phaseBits f) : Fine 0 (h.write w f) := by
  have hin := (keeps_insyscall hkeep h.tcp.flags).trans hf.insyscall
  refine hf.write hin (keeps_attached hkeep) ?_
  rcases hw with rfl | rfl
  · exact ⟨hf.insyscall, hin⟩
  · exact ⟨hf.insyscall, hin⟩

theorem fine_decode {h : Half} (hf : Fine 0 h) (stop : SyscallStop) :
    Fine 0 (syscallEnteringDecode h stop) :=
  ⟨hf.writes, hf.insyscall, hf.attached⟩

theorem fine_revealExec {h : Half} (hf : Fine 0 h) (stop : SyscallStop) :
    Fine 0 (revealExec h stop) := by
  unfold revealExec
  dsimp only
  split
  · have hf' : Fine 0 { h with tcp := { h.tcp with qualFlg := h.tcp.qualFlg &&& ~~~qualInject } } :=
      ⟨hf.writes, hf.insyscall, hf.attached⟩
    split
    · exact hf'.writeEntering (.inl rfl) ((keeps_clear (by decide)).comp (keeps_or (by decide)))
    · exact hf'
  · exact hf

theorem tamperEnteringFlags_disjoint (d : InjectData) (stop : SyscallStop) :
    tamperEnteringFlags d stop &&& phaseBits = 0 := by
  refine or_disjoint (or_disjoint (or_disjoint (or_disjoint (ite_disjoint ?_)
    (ite_disjoint (by decide))) (ite_disjoint (by decide))) (ite_disjoint (by decide)))
    (ite_disjoint (by decide))
  exact or_disjoint (by decide) (ite_disjoint (by decide))

theorem tamperExitingFlags_disjoint (tcp : Tcb) (stop : SyscallStop) :
    tamperExitingFlags tcp stop &&& phaseBits = 0 :=
  or_disjoint (ite_disjoint (by decide)) (ite_disjoint (by decide))

theorem fine_tamperEntering {h : Half} (hf : Fine 0 h) (stop : SyscallStop) :
    Fine 0 (tamperWithSyscallEntering h stop) := by
  unfold tamperWithSyscallEntering
  split
  · exact hf
  · next d _ =>
    split
    · exact hf.writeEntering (.inr rfl) (keeps_or (tamperEnteringFlags_disjoint d stop))
    · exact hf

theorem fine_enteringFinish {h : Half} (hf : Fine 0 h) :
    Fine tcbInsyscall (syscallEnteringFinish h) := by
  have hset := or_and_self h.tcp.flags tcbInsyscall
  refine hf.write hset (keeps_or (by decide)) ⟨hf.insyscall, ?_⟩
  rw [hset]
  decide

/-- A write before `syscall_exiting_finish` that keeps the two. -/
theorem Fine.writeExiting {h : Half} (hf : Fine tcbInsyscall h) {w : Writer}
    (hw : w = .syscallExitingDecode ∨ w = .syscallExitingTrace) {f : UInt32 → UInt32}
    (hkeep : Keeps phaseBits f) : Fine tcbInsyscall (h.write w f) := by
  have hin := keeps_insyscall hkeep h.tcp.flags
  refine hf.write (hin.trans hf.insyscall) (keeps_attached hkeep) ?_
  rcases hw with rfl | rfl
  · exact hin
  · exact hin

theorem fine_exitingDecode {h : Half} (hf : Fine tcbInsyscall h) :
    Fine tcbInsyscall (syscallExitingDecode h) := by
  unfold syscallExitingDecode
  split
  · exact hf.writeExiting (.inl rfl) (keeps_or (by decide))
  · exact hf

theorem fine_exitingTrace {h : Half} (hf : Fine tcbInsyscall h) (stop : SyscallStop) :
    Fine tcbInsyscall (syscallExitingTrace h stop) := by
  unfold syscallExitingTrace
  extract_lets h'
  have hf' : Fine tcbInsyscall h' := by
    unfold h'
    split
    · exact hf.writeExiting (.inr rfl) (keeps_or (tamperExitingFlags_disjoint h.tcp stop))
    · exact hf
  split
  · exact hf'.writeExiting (.inr rfl) (keeps_clear (by decide))
  · exact hf'

theorem fine_exitingFinish {h : Half} (hf : Fine tcbInsyscall h) (regs : UserRegs) :
    Fine 0 (syscallExitingFinish h regs).1 := by
  have hclear : (h.tcp.flags &&& ~~~(tcbInsyscall ||| tcbTampered ||| tcbInjectDelayExit
      ||| tcbInjectPokeExit ||| tcbTamperedDelayed ||| tcbTamperedPoked)) &&& tcbInsyscall = 0 :=
    clear_and_eq_zero (by decide) _
  refine hf.write hclear (keeps_clear (by decide)) ⟨?_, hclear⟩
  rw [hf.insyscall]
  decide

/-- **The exiting half** is in order wherever it can start. -/
theorem fine_traceExiting {h : Half} (hf : Fine tcbInsyscall h) (stop : SyscallStop) :
    Fine 0 (traceExiting h stop) := by
  have hdecode := fine_exitingDecode hf
  unfold traceExiting
  refine fine_exitingFinish ?_ stop.call.regs
  split
  · exact fine_exitingTrace hdecode stop
  · exact hdecode

/-! ## The entering half -/

/-- What the first part of `syscall_entering_trace` leaves alone. -/
theorem revealExec_frame (h : Half) (stop : SyscallStop) :
    (revealExec h stop).injector = h.injector ∧ (revealExec h stop).tcp.scno = h.tcp.scno ∧
      (revealExec h stop).tcp.uArg = h.tcp.uArg ∧
      (revealExec h stop).tcp.qualFlg &&& qualTrace = h.tcp.qualFlg &&& qualTrace := by
  have hkeep := keeps_clear (b := qualTrace) (m := qualInject) (by decide) h.tcp.qualFlg
  unfold revealExec
  dsimp only
  split
  · split
    · exact ⟨rfl, rfl, rfl, hkeep⟩
    · exact ⟨rfl, rfl, rfl, hkeep⟩
  · exact ⟨rfl, rfl, rfl, rfl⟩

/-- Output is hidden afterwards if it was and the call is no `exec`. -/
theorem revealExec_hideLog (h : Half) (stop : SyscallStop) :
    (revealExec h stop).tcp.has tcbHideLog = (h.tcp.has tcbHideLog && !stop.isExec) := by
  unfold revealExec
  dsimp only
  split
  · next hhide =>
    split
    · next hexec =>
      have hclear : (h.tcp.flags &&& ~~~tcbHideLog ||| tcbCheckExecSyscall) &&& tcbHideLog = 0 :=
        (keeps_or (by decide) _).trans (clear_and_eq_zero (by decide) _)
      rw [hhide, hexec]
      exact bne_eq_false_iff_eq.mpr hclear
    · next hexec =>
      rw [Bool.eq_false_of_not_eq_true hexec, Bool.not_false, Bool.and_true]
      rfl
  · next hhide =>
    rw [Bool.eq_false_of_not_eq_true hhide]
    rfl

/-- The call passes the filter of `syscall_entering_trace`. -/
theorem isFiltered_eq_false_iff (h : Half) (stop : SyscallStop) :
    isFiltered (revealExec (syscallEnteringDecode h stop) stop).tcp stop = false ↔
      (h.tcp.has tcbHideLog = true → stop.isExec = true) ∧
        stop.qualFlags &&& qualTrace ≠ 0 ∧ stop.pathMatch = true := by
  have hraw : (syscallEnteringDecode h stop).tcp.qualFlg &&& qualTrace
      = stop.qualFlags &&& qualTrace := by
    unfold syscallEnteringDecode
    dsimp only
    split
    · exact keeps_or (by decide) _
    · rfl
  have hhide : (syscallEnteringDecode h stop).tcp.has tcbHideLog = h.tcp.has tcbHideLog := rfl
  obtain ⟨-, -, -, hqual⟩ := revealExec_frame (syscallEnteringDecode h stop) stop
  unfold isFiltered
  rw [revealExec_hideLog, hqual, hraw, hhide, Bool.or_eq_false_iff, Bool.or_eq_false_iff,
    beq_eq_false_iff_ne, and_assoc]
  refine and_congr ?_ (and_congr Iff.rfl ?_)
  · cases h.tcp.has tcbHideLog <;> cases stop.isExec <;> decide
  · cases stop.pathMatch <;> decide

/-- The injector's decision depends on the number and the arguments of the call
and on what it looks up, not on the flags. -/
theorem handsBackValue_congr {env : InjectorEnv} {s : InjectorState} {c : Call} {tcp : Tcb}
    (hscno : tcp.scno = c.tcp.scno) (harg : tcp.uArg = c.tcp.uArg) :
    HandsBackValue env s { c with tcp := tcp } ↔ HandsBackValue env s c := by
  have hscreen : screen env { c with tcp := tcp } = screen env c := by
    unfold screen
    rw [← harg]
  constructor
  · intro hb
    obtain ⟨isSend, source, kind, hsys, hscr, hdraw⟩ := hb.event
    refine ⟨hb.alive, hb.notPending, hb.faults, hb.faultByte, ?_, hb.room⟩
    exact ⟨isSend, source, kind, hscno ▸ hsys, hscreen ▸ hscr, hdraw⟩
  · intro hb
    obtain ⟨isSend, source, kind, hsys, hscr, hdraw⟩ := hb.event
    refine ⟨hb.alive, hb.notPending, hb.faults, hb.faultByte, ?_, hb.room⟩
    exact ⟨isSend, source, kind, hscno.symm ▸ hsys, hscreen.symm ▸ hscr, hdraw⟩

/-- The call of the injector is in order if no value is handed back. -/
theorem fine_fuzzEnter {env : InjectorEnv} {h : Half} (stop : SyscallStop) (hf : Fine 0 h)
    (hno : ¬HandsBackValue env h.injector { stop.call with tcp := h.tcp }) :
    Fine 0 (fuzzSyscallEnter env h stop) := by
  have hsame := (enter_flags_iff hf.attached hf.insyscall).mpr hno
  unfold fuzzSyscallEnter
  refine { writes := fun w hw => ?_, insyscall := ?_, attached := ?_ }
  · rcases List.mem_append.mp hw with hold | hnew
    · exact hf.writes w hold
    · obtain rfl := List.mem_singleton.mp hnew
      exact ⟨hf.insyscall, hsame⟩
  · exact (congrArg (· &&& tcbInsyscall) hsame).trans hf.insyscall
  · exact (congrArg (· &&& tcbAttached) hsame).trans hf.attached

/-- It is not if one is. -/
theorem not_ok_fuzzEnter {env : InjectorEnv} {h : Half} (stop : SyscallStop) (hf : Fine 0 h)
    (hb : HandsBackValue env h.injector { stop.call with tcp := h.tcp }) :
    ∃ w ∈ (fuzzSyscallEnter env h stop).writes, ¬w.Ok := by
  refine ⟨_, List.mem_append_right _ (List.mem_singleton_self _), fun hok => ?_⟩
  exact (enter_flags_iff hf.attached hf.insyscall).mp hok.2 hb

/-- A write that is out of order stays in the log. -/
theorem exists_not_ok_write {h : Half} (hbad : ∃ w ∈ h.writes, ¬w.Ok) (writer : Writer)
    (f : UInt32 → UInt32) : ∃ w ∈ (h.write writer f).writes, ¬w.Ok := by
  obtain ⟨w', hw', hno⟩ := hbad
  exact ⟨w', List.mem_append_left _ hw', hno⟩

theorem exists_not_ok_tamper {h : Half} (hbad : ∃ w ∈ h.writes, ¬w.Ok) (stop : SyscallStop) :
    ∃ w ∈ (tamperWithSyscallEntering h stop).writes, ¬w.Ok := by
  unfold tamperWithSyscallEntering
  split
  · exact hbad
  · split
    · exact exists_not_ok_write hbad _ _
    · exact hbad

/-- The half as the injector finds it: decoded, revealed, and not filtered out. -/
def atInjector (h : Half) (stop : SyscallStop) : Half :=
  (revealExec (syscallEnteringDecode h stop) stop).write .syscallEnteringTrace
    (· &&& ~~~tcbFiltered)

theorem fine_atInjector {h : Half} (hf : Fine 0 h) (stop : SyscallStop) :
    Fine 0 (atInjector h stop) :=
  (fine_revealExec (fine_decode hf stop) stop).writeEntering (.inl rfl) (keeps_clear (by decide))

theorem handsBackValue_atInjector (env : InjectorEnv) (h : Half) (stop : SyscallStop) :
    HandsBackValue env (atInjector h stop).injector
        { stop.call with tcp := (atInjector h stop).tcp } ↔
      HandsBackValue env h.injector stop.call := by
  obtain ⟨hinj, hscno, harg, -⟩ := revealExec_frame (syscallEnteringDecode h stop) stop
  rw [show (atInjector h stop).injector = h.injector from hinj]
  refine handsBackValue_congr ?_ ?_
  · exact hscno
  · exact harg

/-- **The entering half** is in order unless the injector is reached and hands
back a value. -/
theorem fine_traceEntering {env : InjectorEnv} {h : Half} {stop : SyscallStop} (hf : Fine 0 h)
    (hno : ¬(ReachesInjector h.tcp stop ∧ HandsBackValue env h.injector stop.call)) :
    ∃ b, Fine b (traceEntering env h stop) := by
  have hdec := fine_decode hf stop
  have hrev := fine_revealExec hdec stop
  unfold traceEntering
  dsimp only
  -- a bail-out returns at once, an error goes on to the end, and only `ok` is traced
  split
  · exact ⟨0, hdec⟩
  · exact ⟨tcbInsyscall, fine_enteringFinish hdec⟩
  · next hok =>
    have htrace : Fine 0 (syscallEnteringTrace env (syscallEnteringDecode h stop) stop) := by
      unfold syscallEnteringTrace
      dsimp only
      split
      · exact hrev.writeEntering (.inl rfl) (keeps_or (by decide))
      · next hfil =>
        obtain ⟨hvis, htr, hpath⟩ :=
          (isFiltered_eq_false_iff h stop).mp (Bool.eq_false_of_not_eq_true hfil)
        have hent : h.tcp.entering = true := by
          unfold Tcb.entering Tcb.has
          rw [hf.insyscall]
          rfl
        -- the call is not one that hands back a value, so the injector writes no flag
        have hcall := fine_fuzzEnter stop (fine_atInjector hf stop) fun hb =>
          hno ⟨⟨hent, hok, hvis, htr, hpath⟩, (handsBackValue_atInjector env h stop).mp hb⟩
        split
        · exact hcall
        · split
          · exact fine_tamperEntering hcall stop
          · exact hcall
    split
    · exact ⟨0, htrace⟩
    · exact ⟨tcbInsyscall, fine_enteringFinish htrace⟩

/-- It is out of order if so. -/
theorem not_ok_traceEntering {env : InjectorEnv} {h : Half} {stop : SyscallStop} (hf : Fine 0 h)
    (hreach : ReachesInjector h.tcp stop) (hb : HandsBackValue env h.injector stop.call) :
    ∃ w ∈ (traceEntering env h stop).writes, ¬w.Ok := by
  have hfil :=
    (isFiltered_eq_false_iff h stop).mpr ⟨hreach.visible, hreach.traced, hreach.pathMatch⟩
  have hcall := not_ok_fuzzEnter stop (fine_atInjector hf stop)
    ((handsBackValue_atInjector env h stop).mpr hb)
  have htrace : ∃ w ∈ (syscallEnteringTrace env (syscallEnteringDecode h stop) stop).writes,
      ¬w.Ok := by
    unfold syscallEnteringTrace
    dsimp only
    rw [hfil, if_neg (by decide)]
    split
    · exact hcall
    · split
      · exact exists_not_ok_tamper hcall stop
      · exact hcall
  unfold traceEntering
  rw [hreach.decoded]
  dsimp only
  split
  · exact htrace
  · exact exists_not_ok_write htrace _ _

/-! ## Stops and runs -/

/-- The bit is clear or set. -/
theorem and_insyscall_cases (x : UInt32) :
    x &&& tcbInsyscall = 0 ∨ x &&& tcbInsyscall = tcbInsyscall := by
  have hbit : (x &&& tcbInsyscall).toNat = (x.toNat.testBit 2).toNat * 2 ^ 2 := by
    rw [UInt32.toNat_and]
    exact Nat.and_two_pow x.toNat 2
  cases hb : x.toNat.testBit 2 with
  | false =>
    rw [hb] at hbit
    exact .inl (UInt32.toNat_inj.mp hbit)
  | true =>
    rw [hb] at hbit
    exact .inr (UInt32.toNat_inj.mp hbit)

theorem entering_iff (tcp : Tcb) : tcp.entering = true ↔ tcp.flags &&& tcbInsyscall = 0 := by
  unfold Tcb.entering Tcb.has
  rw [Bool.not_eq_true', bne_eq_false_iff_eq]

/-- A tracee whose writes are in order so far and that is attached is in one of
the two phases. -/
theorem fine_of_attached {h : Half} (hw : ∀ w ∈ h.writes, w.Ok)
    (hatt : h.tcp.flags &&& tcbAttached = tcbAttached) : Fine 0 h ∨ Fine tcbInsyscall h := by
  rcases and_insyscall_cases h.tcp.flags with h0 | h1
  · exact .inl ⟨hw, h0, hatt⟩
  · exact .inr ⟨hw, h1, hatt⟩

theorem Fine.entering {h : Half} (hf : Fine 0 h) : h.tcp.entering = true :=
  (entering_iff h.tcp).mpr hf.insyscall

theorem Fine.not_entering {h : Half} (hf : Fine tcbInsyscall h) : ¬h.tcp.entering = true := by
  rw [entering_iff, hf.insyscall]
  decide

/-- A write of the main loop. -/
theorem Fine.writeDispatch {b : UInt32} {h : Half} (hf : Fine b h) {f : UInt32 → UInt32}
    (hkeep : Keeps phaseBits f) : Fine b (h.write .dispatchEvent f) := by
  have hin := keeps_insyscall hkeep h.tcp.flags
  exact hf.write (hin.trans hf.insyscall) (keeps_attached hkeep) hin

theorem keeps_tcbEvent (e : TcbEvent) : Keeps phaseBits e.flags := by
  cases e with
  | startup => exact keeps_clear (by decide)
  | ignoredSigstop => exact keeps_clear (by decide)
  | seccompFilter => exact keeps_or (by decide)
  | restartDelayed => exact keeps_clear (by decide)
  | superseded => exact keeps_or (by decide)

/-- The flags a stop before `execve` writes do not decide whether the injector is
reached. -/
theorem reachesInjector_recover (h : Half) (stop : SyscallStop) :
    ReachesInjector ((h.write .dispatchEvent (· &&& ~~~tcbCheckExecSyscall)).write .dispatchEvent
      (· ||| tcbRecovering)).tcp stop ↔ ReachesInjector h.tcp stop := by
  -- both masks are disjoint from the two bits that `ReachesInjector` reads
  have hbit : ∀ b, tcbCheckExecSyscall &&& b = 0 → tcbRecovering &&& b = 0 →
      ((h.write .dispatchEvent (· &&& ~~~tcbCheckExecSyscall)).write .dispatchEvent
        (· ||| tcbRecovering)).tcp.has b = h.tcp.has b := by
    intro b hc hr
    exact congrArg (· != 0) (((keeps_clear hc).comp (keeps_or hr)) h.tcp.flags)
  have hent := congrArg (!·) (hbit tcbInsyscall (by decide) (by decide))
  have hhide := hbit tcbHideLog (by decide) (by decide)
  constructor
  · intro hr
    exact ⟨hent.symm.trans hr.entering, hr.decoded, hhide ▸ hr.visible, hr.traced, hr.pathMatch⟩
  · intro hr
    exact ⟨hent.trans hr.entering, hr.decoded, fun h => hr.visible (hhide ▸ h), hr.traced,
      hr.pathMatch⟩

/-- The injector is reached at this stop and hands back a value. -/
def InjectsAt (env : InjectorEnv) (h : Half) : StraceInput → Prop
  | .attach _ _ => False
  | .drop _ => False
  | .syscallStop _ stop =>
    ReachesInjector h.tcp stop ∧ HandsBackValue env h.injector stop.call
  | .execveStop _ stop =>
    ReachesInjector h.tcp stop ∧ HandsBackValue env h.injector stop.call
  | .event _ _ => False

theorem fine_traceSyscall {env : InjectorEnv} {h : Half} {stop : SyscallStop}
    (hf : Fine 0 h ∨ Fine tcbInsyscall h)
    (hno : ¬(ReachesInjector h.tcp stop ∧ HandsBackValue env h.injector stop.call)) :
    ∃ b, Fine b (traceSyscall env h stop) := by
  unfold traceSyscall
  rcases hf with hf | hf
  · rw [if_pos hf.entering]
    exact fine_traceEntering hf hno
  · rw [if_neg hf.not_entering]
    exact ⟨0, fine_traceExiting hf stop⟩

theorem not_ok_traceSyscall {env : InjectorEnv} {h : Half} {stop : SyscallStop}
    (hf : Fine 0 h) (hreach : ReachesInjector h.tcp stop)
    (hb : HandsBackValue env h.injector stop.call) :
    ∃ w ∈ (traceSyscall env h stop).writes, ¬w.Ok := by
  unfold traceSyscall
  rw [if_pos hf.entering]
  exact not_ok_traceEntering hf hreach hb

/-- The two writes before the system call is traced to recover. -/
theorem fine_recover {h : Half} (hf : Fine 0 h) :
    Fine 0 ((h.write .dispatchEvent (· &&& ~~~tcbCheckExecSyscall)).write .dispatchEvent
      (· ||| tcbRecovering)) :=
  (hf.writeDispatch (keeps_clear (by decide))).writeDispatch (keeps_or (by decide))

theorem fine_stopBeforeExecve {env : InjectorEnv} {h : Half} {stop : SyscallStop}
    (hf : Fine 0 h ∨ Fine tcbInsyscall h)
    (hno : ¬(ReachesInjector h.tcp stop ∧ HandsBackValue env h.injector stop.call)) :
    ∃ b, Fine b (stopBeforeExecve env h stop) := by
  unfold stopBeforeExecve
  rcases hf with hf | hf
  · have hclear : Fine 0 (h.write .dispatchEvent (· &&& ~~~tcbCheckExecSyscall)) :=
      hf.writeDispatch (keeps_clear (by decide))
    rw [if_pos hclear.entering]
    rw [← reachesInjector_recover] at hno
    obtain ⟨b, htrace⟩ := fine_traceSyscall (.inl (fine_recover hf)) hno
    dsimp only
    split
    · exact ⟨b, htrace⟩
    · exact ⟨b, htrace.writeDispatch (keeps_clear (by decide))⟩
  · have hclear : Fine tcbInsyscall (h.write .dispatchEvent (· &&& ~~~tcbCheckExecSyscall)) :=
      hf.writeDispatch (keeps_clear (by decide))
    rw [if_neg hclear.not_entering]
    exact ⟨tcbInsyscall, hclear⟩

theorem not_ok_stopBeforeExecve {env : InjectorEnv} {h : Half} {stop : SyscallStop}
    (hf : Fine 0 h) (hreach : ReachesInjector h.tcp stop)
    (hb : HandsBackValue env h.injector stop.call) :
    ∃ w ∈ (stopBeforeExecve env h stop).writes, ¬w.Ok := by
  have hclear : Fine 0 (h.write .dispatchEvent (· &&& ~~~tcbCheckExecSyscall)) :=
    hf.writeDispatch (keeps_clear (by decide))
  have htrace := not_ok_traceSyscall (fine_recover hf)
    ((reachesInjector_recover h stop).mpr hreach) hb
  unfold stopBeforeExecve
  rw [if_pos hclear.entering]
  dsimp only
  split
  · exact htrace
  · exact exists_not_ok_write htrace _ _

/-- What one input does to an attached tracee. -/
theorem fine_handleTcb {env : InjectorEnv} {h : Half} {input : StraceInput}
    (hf : Fine 0 h ∨ Fine tcbInsyscall h) (hno : ¬InjectsAt env h input) :
    ∃ b, Fine b (handleTcb env h input) := by
  have hsame : ∃ b, Fine b h := hf.elim (⟨0, ·⟩) (⟨tcbInsyscall, ·⟩)
  cases input with
  | attach tid flags => exact hsame
  | drop tid => exact hsame
  | syscallStop tid stop => exact fine_traceSyscall hf hno
  | execveStop tid stop => exact fine_stopBeforeExecve hf hno
  | event tid e =>
    obtain ⟨b, hb⟩ := hsame
    exact ⟨b, hb.writeDispatch (keeps_tcbEvent e)⟩

theorem not_ok_handleTcb {env : InjectorEnv} {h : Half} {input : StraceInput}
    (hf : Fine 0 h ∨ Fine tcbInsyscall h) (hinj : InjectsAt env h input) :
    ∃ w ∈ (handleTcb env h input).writes, ¬w.Ok := by
  -- the injector is only reached in the entering half
  have hzero : ∀ stop, ReachesInjector h.tcp stop → Fine 0 h := fun stop hreach =>
    hf.resolve_right fun h1 => h1.not_entering hreach.entering
  cases input with
  | attach tid flags => exact hinj.elim
  | drop tid => exact hinj.elim
  | syscallStop tid stop => exact not_ok_traceSyscall (hzero stop hinj.1) hinj.1 hinj.2
  | execveStop tid stop => exact not_ok_stopBeforeExecve (hzero stop hinj.1) hinj.1 hinj.2
  | event tid e => exact hinj.elim

/-- Every tracee is attached: `TCB_ATTACHED` is set when it is put into the table, and writes
that are in order leave it set. -/
def Attached (s : Strace) : Prop :=
  ∀ tid tcp, s.tcbs tid = some tcp → tcp.flags &&& tcbAttached = tcbAttached

/-- A tracee at the start of a step. -/
theorem fine_tracee {s : Strace} (hs : Attached s) {tid : Nat} {tcp : Tcb}
    (htcp : s.tcbs tid = some tcp) :
    Fine 0 ⟨s.injector, tcp, []⟩ ∨ Fine tcbInsyscall ⟨s.injector, tcp, []⟩ :=
  fine_of_attached (fun _ hw => absurd hw List.not_mem_nil) (hs tid tcp htcp)

theorem injectsValue_iff {env : InjectorEnv} {s : Strace} {input : StraceInput} {tcp : Tcb}
    (htcp : s.tcbs input.tid = some tcp) :
    InjectsValue env s input ↔ InjectsAt env ⟨s.injector, tcp, []⟩ input := by
  constructor
  · rintro ⟨tcp', stop, htcp', hstop, hreach, hb⟩
    obtain rfl := Option.some.inj (htcp.symm.trans htcp')
    rcases hstop with hstop | hstop
    · rw [hstop]
      exact ⟨hreach, hb⟩
    · rw [hstop]
      exact ⟨hreach, hb⟩
  · intro hinj
    cases input with
    | attach tid flags => exact hinj.elim
    | drop tid => exact hinj.elim
    | syscallStop tid stop => exact ⟨tcp, stop, htcp, .inl rfl, hinj⟩
    | execveStop tid stop => exact ⟨tcp, stop, htcp, .inr rfl, hinj⟩
    | event tid e => exact hinj.elim

/-- Either an input finds its tracee, or it writes nothing and injects nothing. -/
theorem handled_cases (env : InjectorEnv) (s : Strace) (input : StraceInput) :
    (handled env s input = none ∧ ¬InjectsValue env s input) ∨
      ∃ tcp, s.tcbs input.tid = some tcp ∧
        handled env s input = some (handleTcb env ⟨s.injector, tcp, []⟩ input) := by
  unfold handled
  split
  · next hdied =>
    refine .inl ⟨rfl, ?_⟩
    rintro ⟨_, _, _, _, _, hb⟩
    exact absurd (hdied.symm.trans hb.alive) (by decide)
  · cases htcp : s.tcbs input.tid with
    | none =>
      refine .inl ⟨rfl, ?_⟩
      rintro ⟨tcp, _, hsome, _⟩
      exact absurd (htcp.symm.trans hsome) (by simp)
    | some tcp => exact .inr ⟨tcp, rfl, rfl⟩

/-- **One input**: the writes it makes are in order exactly if it injects no
value. -/
theorem writesOk_iff {env : InjectorEnv} {s : Strace} {input : StraceInput} (hs : Attached s) :
    WritesOk env s input ↔ ¬InjectsValue env s input := by
  unfold WritesOk flagWrites
  rcases handled_cases env s input with ⟨hnone, hno⟩ | ⟨tcp, htcp, hsome⟩
  · rw [hnone]
    exact ⟨fun _ => hno, fun _ w hw => absurd hw List.not_mem_nil⟩
  · have hf := fine_tracee hs htcp
    rw [hsome, injectsValue_iff htcp]
    constructor
    · intro hok hinj
      obtain ⟨w, hw, hno⟩ := not_ok_handleTcb hf hinj
      exact hno (hok w hw)
    · intro hno
      obtain ⟨b, hb⟩ := fine_handleTcb hf hno
      exact hb.writes

theorem attached_toFlags (f : AttachFlags) : f.toFlags &&& tcbAttached = tcbAttached := by
  obtain ⟨g, i, h, d⟩ := f
  revert g i h d
  decide

theorem attached_update {s : Strace} (hs : Attached s) (injector : InjectorState) (tid : Nat)
    {o : Option Tcb} (ho : ∀ tcp, o = some tcp → tcp.flags &&& tcbAttached = tcbAttached) :
    Attached { injector := injector, tcbs := Function.update s.tcbs tid o } := by
  intro tid' tcp' htcp'
  change Function.update s.tcbs tid o tid' = some tcp' at htcp'
  by_cases heq : tid' = tid
  · rw [heq, Function.update_self] at htcp'
    exact ho tcp' htcp'
  · rw [Function.update_of_ne heq] at htcp'
    exact hs tid' tcp' htcp'

/-- Tracees stay attached as long as the writes are in order. -/
theorem attached_step {env : InjectorEnv} {s : Strace} {input : StraceInput} (hs : Attached s)
    (hok : WritesOk env s input) : Attached (stepStrace env s input) := by
  have hno := (writesOk_iff hs).mp hok
  -- an input other than `attach` and `drop`
  have hother : ∀ h, handled env s input = some h →
      Attached
        { injector := h.injector, tcbs := Function.update s.tcbs input.tid (some h.tcp) } := by
    intro h hh
    rcases handled_cases env s input with ⟨hnone, -⟩ | ⟨tcp, htcp, hsome⟩
    · exact absurd (hnone.symm.trans hh) (by simp)
    · obtain rfl := Option.some.inj (hsome.symm.trans hh)
      obtain ⟨b, hb⟩ := fine_handleTcb (fine_tracee hs htcp) fun hinj =>
        hno ((injectsValue_iff htcp).mpr hinj)
      refine attached_update hs _ _ fun tcp' htcp' => ?_
      obtain rfl := Option.some.inj htcp'
      exact hb.attached
  unfold stepStrace
  split
  · exact hs
  · cases input with
    | attach tid flags =>
      refine attached_update hs _ _ fun tcp' htcp' => ?_
      obtain rfl := Option.some.inj htcp'
      exact attached_toFlags flags
    | drop tid => exact attached_update hs _ _ fun _ h => absurd h (by simp)
    | _ =>
      dsimp only
      split
      · exact hs
      · next h hh => exact hother h hh

/-- **The phase flag**: for every random file and every sequence of stops of any
number of tracees, only the two finishing functions change `TCB_INSYSCALL`, the
injector changes no flag, and the entering half runs with the bit clear, exactly
if at no stop the injector decides for a fault with a return value. -/
theorem phase_flag_iff (env : InjectorEnv) (file : List UInt8) (hashEnv : HashEnv)
    (shared : Shared) (inputs : List StraceInput) :
    Steps (stepStrace env) (WritesOk env) (.init file hashEnv shared) inputs ↔
      Steps (stepStrace env) (fun s input => ¬InjectsValue env s input)
        (.init file hashEnv shared) inputs := by
  refine steps_congr Attached (fun _ _ => writesOk_iff) (fun _ _ => attached_step) ?_
  intro tid tcp htcp
  exact absurd htcp (by simp [Strace.init])

/-- The enter stop of `socketSend`, traced and not filtered out. -/
def socketSendStop : SyscallStop :=
  { decoded := .ok
    call := socketSend
    qualFlags := qualTrace
    isExec := false
    pathMatch := true
    countersSelect := true
    scnoSet := true
    poked := false
    resultRead := true
    resumed := false }

/-- With a random file that starts with the bytes `200` and `1`, the first send of
an attached tracee fails, and `TCB_INSYSCALL` is set before its entering half is
over. -/
theorem socketSend_phase_flag :
    ¬Steps (stepStrace ⟨false, none⟩) (WritesOk ⟨false, none⟩)
      (.init [200, 1] ⟨false, 0⟩ ⟨fun _ => 0, 0⟩)
      [.attach 1 ⟨false, false, false, false⟩, .syscallStop 1 socketSendStop] := by
  rintro ⟨-, hok, -⟩
  have hattached : Attached (stepStrace ⟨false, none⟩ (.init [200, 1] ⟨false, 0⟩ ⟨fun _ => 0, 0⟩)
      (.attach 1 ⟨false, false, false, false⟩)) := by
    refine attached_update (fun tid tcp htcp => absurd htcp (by simp [Strace.init])) _ _ ?_
    rintro tcp ⟨⟩
    exact attached_toFlags _
  refine (writesOk_iff hattached).mp hok ?_
  refine ⟨_, socketSendStop, rfl, .inl rfl, ?_, ?_⟩
  · exact
      { entering := by decide
        decoded := rfl
        visible := by decide
        traced := by decide
        pathMatch := rfl }
  · exact
      { alive := rfl
        notPending := rfl
        faults := rfl
        faultByte := by decide
        event := ⟨true, .arg, ⟨false, false⟩, rfl, by decide, .inl (by decide)⟩
        room := by decide }

end DistFuzz.Injector
