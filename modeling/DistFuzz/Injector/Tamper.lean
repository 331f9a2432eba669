import DistFuzz.Injector.PhaseFlag
import DistFuzz.Injector.Loss

/-!
# What a call gives back
(strace/src/syscall.c:489–587, 1019–1034, 1513–1565, strace.c:3421–3442,
linux/x86_64/get_error.c, dst_fuzz.c:484–508)

To let a call fail, strace replaces its number by `-1` at the enter stop, so that the
kernel executes nothing, and writes the result into the register at the exit stop. What
connects the two stops is in the trace control block: a flag, and the number of a slot in
the table of return values, which every thread of the node shares. Between the stops of
one thread there are stops of others. The last thing that happens at an exit stop is the
injector's own: if a duplication is pending and the registers are close to the stored
ones, it winds the thread back, whichever thread that is.

- `tamperWithSyscallExiting`: the exit stop's part; `exitResult`: the registers the
  application goes on with.
- `TracedCalls`, `stepCalls`: the tracer of `SyscallStop` together with what the kernel
  does, and a record of every call that came to its end.
- `Entered`: what the injector can leave behind at an enter stop.
- `results_exact`: whatever the interleaving, a call for which a value was drawn is not
  executed and gives back that value, and every other call is executed and gives back what
  the kernel returned, but for calls that are wound back.

ptrace is taken to do what it is asked to (`PtraceWorks`).
-/

namespace DistFuzz.Injector

open DistFuzz.Lib

/-! ## The exit stop -/

/-- `is_negated_errno`, with `MAX_ERRNO_VALUE` as 4095. -/
def isNegatedErrno (rax : Int64) : Bool := -4095 ≤ rax && rax < 0

/-- `u_error`, as `get_error` reads it off the register. -/
def getError (rax : Int64) : Int64 := if isNegatedErrno rax then -rax else 0

/-- `set_error`, for the register. -/
def setError (rax newError : Int64) : Int64 :=
  if newError = getError rax ∨ newError.toUInt64 > 4095 then rax else -newError

/-- `tamper_with_syscall_exiting`, for the register; `none`: strace dies over a slot that
was never taken. -/
def tamperWithSyscallExiting (retvalVec : List Int64) (tcp : Tcb) (rax : Int64) : Option Int64 :=
  match tcp.injectVec with
  | none => some rax
  | some d =>
    if !tcp.has tcbTampered then some rax
    -- "Failed to tamper with process"
    else if (getError rax == 0) != tcp.has tcbTamperedNoFail then some rax
    else
      (retvalGet retvalVec d.rvalIdx).map fun v =>
        if d.flags &&& injectFRetval != 0 then v else setError rax v

/-- The register when `syscall_exiting_trace` is through. -/
def exitingRax (h : Half) (rax : Int64) : Option Int64 :=
  if h.tcp.has (tcbTampered ||| tcbInjectDelayExit ||| tcbInjectPokeExit) then
    tamperWithSyscallExiting h.injector.retvalVec h.tcp rax
  else some rax

/-- The registers after the exit stop, which a tracee with these registers has come to. -/
def exitResult (h : Half) (stop : SyscallStop) (regs : UserRegs) : Option UserRegs :=
  let h := syscallExitingDecode h
  if !h.tcp.has tcbFiltered && stop.resultRead then
    (exitingRax h regs.rax.toInt64).map fun rax =>
      (syscallExitingFinish (syscallExitingTrace h stop) { regs with rax := rax.toUInt64 }).2
  else some (syscallExitingFinish h regs).2

/-! ## Calls -/

/-- A call between its two stops: the return value that was drawn for it, and whether the
kernel executes it. -/
structure OpenCall where
  injected : Option Int64
  executed : Bool
deriving DecidableEq

/-- A call that came to its end: the registers as the kernel left them, `stored_regs` at
that time, and the registers the application goes on with. -/
structure FinishedCall where
  call : OpenCall
  regs : UserRegs
  stored : Option UserRegs
  seen : Option UserRegs
deriving DecidableEq

/-- The tracer, the calls under way, and those that are over. The calls are a ghost record:
nothing of it is read by the tracer. -/
structure TracedCalls where
  strace : Strace
  calls : Nat → Option OpenCall
  finished : List FinishedCall

/-- `ENOSYS`, negated: what the kernel returns for the call number `-1`. -/
def negEnosys : Int64 := -38

/-- The registers at an exit stop: those of the stop, with the kernel's result in `rax`. For
a number that was replaced there is nothing to execute. -/
def kernelExit (c : OpenCall) (regs : UserRegs) : UserRegs :=
  if c.executed then regs
  else { regs with rax := negEnosys.toUInt64, origRax := noSyscall }

/-- The call that an enter stop opens. `TCB_TAMPERED` is set where the number is
replaced. -/
def openCall (before after : Strace) (tid : Nat) : OpenCall where
  injected := retvalDrawn before.injector after.injector
  executed := (after.tcbs tid).all fun tcp => !tcp.has tcbTampered

/-- An exit stop. -/
def finishCall (s : Strace) (tcp : Tcb) (stop : SyscallStop) (c : OpenCall) : FinishedCall where
  call := c
  regs := kernelExit c stop.call.regs
  stored := s.injector.storedRegs
  seen := exitResult ⟨s.injector, tcp, []⟩ stop (kernelExit c stop.call.regs)

/-- One input. The kernel's stops of a thread are an enter stop and an exit stop in turn. -/
def stepCalls (env : InjectorEnv) (s : TracedCalls) (input : StraceInput) : TracedCalls :=
  if s.strace.injector.died then s
  else
    let strace := stepStrace env s.strace input
    match input with
    | .attach tid _ => { s with strace := strace, calls := Function.update s.calls tid none }
    | .drop tid => { s with strace := strace, calls := Function.update s.calls tid none }
    | .execveStop _ _ => { s with strace := strace }
    | .event _ _ => { s with strace := strace }
    | .syscallStop tid stop =>
      match s.strace.tcbs tid, s.calls tid with
      | none, _ => s
      | some _, none =>
        { s with
          strace := strace
          calls := Function.update s.calls tid (some (openCall s.strace strace tid)) }
      | some tcp, some c =>
        { strace := strace
          calls := Function.update s.calls tid none
          finished := s.finished ++ [finishCall s.strace tcp stop c] }

/-- No tracee. -/
def TracedCalls.init (file : List UInt8) (hashEnv : HashEnv) (shared : Shared) : TracedCalls :=
  ⟨.init file hashEnv shared, fun _ => none, []⟩

/-- ptrace does what it is asked to, strace was started without injections of its own, and
`exec` is reported inside of a call. -/
def PtraceWorks (s : TracedCalls) (input : StraceInput) : Prop :=
  match input with
  | .syscallStop tid stop =>
    match s.calls tid with
    | none => stop.decoded ≠ .bailOut ∧ stop.countersSelect = true ∧ stop.scnoSet = true ∧
        stop.qualFlags &&& qualInject = 0
    | some _ => stop.resultRead = true
  | .execveStop tid _ => (s.calls tid).isSome = true
  | _ => True

/-- The registers the application should find: with the value that was drawn, or with what
the kernel returned. -/
def FinishedCall.due (f : FinishedCall) : UserRegs :=
  match f.call.injected with
  | some v => { f.regs with rax := v.toUInt64 }
  | none => f.regs

/-- The exit stop meets a pending duplication, and the registers are those of the stored
call but for one at most. -/
def FinishedCall.WoundBack (f : FinishedCall) (stored : UserRegs) : Prop :=
  f.stored = some stored ∧ compareRegs f.due stored < 2

/-- The call was executed exactly if no value was drawn for it, and gave back what it
should. The one exception is a call that is wound back: it finds the number of the stored
call in `rax`, and its program counter at the stored `syscall` instruction. -/
structure FinishedCall.Exact (f : FinishedCall) : Prop where
  executed : f.call.executed = f.call.injected.isNone
  given : (∀ stored, ¬f.WoundBack stored) → f.seen = some f.due
  again : ∀ stored, f.WoundBack stored →
    f.seen = some { f.due with rax := stored.origRax, rip := stored.rip - 2 }

/-! ## The enter stop -/

/-- What the injector makes of the table of return values and of the trace control block at
an enter stop, unless it dies: nothing, a delay, or a value to give back in a new slot. -/
inductive Entered (vec vec' : List Int64) (tcp tcp' : Tcb) : Prop where
  | plain (kept : vec' = vec) (flags : tcp'.flags = tcp.flags) (qual : tcp'.qualFlg = tcp.qualFlg)
  | delayed (d : InjectData) (kept : vec' = vec) (flags : tcp'.flags = tcp.flags ||| tcbAttached)
      (inject : tcp'.injectVec = some d) (data : d.flags = injectFDelayEnter)
  | forged (v : Int64) (d : InjectData) (drawn : vec' = vec ++ [v])
      (flags : tcp'.flags = tcp.flags ||| tcbInsyscall)
      (qual : tcp'.qualFlg = tcp.qualFlg ||| qualInject) (inject : tcp'.injectVec = some d)
      (data : d.flags = injectFRetval) (slot : d.rvalIdx.toNat = vec.length)

theorem entered_injectRetval {s s' : InjectorState} {tcp tcp' : Tcb} {rval : Int64}
    (h : injectRetval s tcp rval = some (s', tcp')) :
    Entered s.retvalVec s'.retvalVec tcp tcp' := by
  unfold injectRetval retvalNew at h
  dsimp only at h
  split at h
  · exact absurd h (by simp)
  · next hroom =>
    rw [Option.map_some, Option.some.injEq, Prod.mk.injEq] at h
    obtain ⟨rfl, rfl⟩ := h
    -- the index is cut to 16 bits, and the room that was found says that nothing is lost
    refine .forged rval _ rfl rfl rfl rfl rfl (le_antisymm ?_ (not_lt.mp hroom))
    show (UInt16.ofNat s.retvalVec.length).toNat ≤ s.retvalVec.length
    rw [UInt16.toNat_ofNat']
    exact Nat.mod_le _ _

theorem entered_applyEvent {s s' : InjectorState} {c : Call} {kind : FileKind} {length : UInt64}
    {errorCodes : List Int64} {ev : Option InjectEvent} {tcp' : Tcb}
    (h : applyEvent s c kind length errorCodes ev = some (s', tcp')) :
    Entered s.retvalVec s'.retvalVec c.tcp tcp' := by
  rcases ev with _ | ev
  · obtain ⟨rfl, rfl⟩ := Prod.mk.inj (Option.some.inj h)
    exact .plain rfl rfl rfl
  cases ev with
  | delay =>
    -- a delay draws no return value; what it reads from the stream does not matter here
    rw [applyEvent, injectDelay, Option.map_eq_some_iff] at h
    obtain ⟨slot, -, heq⟩ := h
    obtain ⟨rfl, rfl⟩ := Prod.mk.inj heq
    exact .delayed _ rfl rfl rfl rfl
  | fail =>
    rw [applyEvent, injectFail] at h
    split at h
    · exact entered_injectRetval h
    · exact entered_injectRetval (s := { s with random := s.random.getRandomUint8.2 }) h
  | lost => exact entered_injectRetval h
  | dup =>
    obtain ⟨rfl, rfl⟩ := Prod.mk.inj (Option.some.inj h)
    exact .plain rfl rfl rfl
  | netpart => exact entered_injectRetval (s := { s with netPartition := true }) h
  | numInjectEvents =>
    obtain ⟨rfl, rfl⟩ := Prod.mk.inj (Option.some.inj h)
    exact .plain rfl rfl rfl

theorem entered_injectFault {s : InjectorState} {c : Call} {kind : FileKind} {isSend : Bool}
    {length : UInt64} {errorCodes : List Int64}
    (halive : (injectFault s c kind isSend length errorCodes).injector.died = false) :
    Entered s.retvalVec (injectFault s c kind isSend length errorCodes).injector.retvalVec c.tcp
      (injectFault s c kind isSend length errorCodes).tcp := by
  unfold injectFault at halive ⊢
  dsimp only at halive ⊢
  split
  · next hdied =>
    rw [hdied] at halive
    exact absurd halive (by simp)
  · next s' tcp' happ =>
    have hent := entered_applyEvent happ
    exact hent

/-- An enter stop that strace survives. -/
theorem entered_enter {env : InjectorEnv} {s : InjectorState} {c : Call}
    (halive : (dstFuzzSyscallEnter env s c).injector.died = false) :
    Entered s.retvalVec (dstFuzzSyscallEnter env s c).injector.retvalVec c.tcp
      (dstFuzzSyscallEnter env s c).tcp := by
  rcases enter_cases env s c with h | ⟨regs, -, -, -, h⟩ | ⟨s', kind, isSend, source, hs', h⟩ |
    ⟨kind, isSend, source, -, -, -, -, -, -, h⟩
  · rw [h]
    exact .plain rfl rfl rfl
  · rw [h]
    exact .plain rfl rfl rfl
  · rw [h]
    refine .plain ?_ rfl rfl
    rcases hs' with rfl | rfl <;> rfl
  · rw [h] at halive ⊢
    exact entered_injectFault halive

/-! ## The entering half -/

/-- Flags that stay clear: strace recovers from nothing, and no call number is replaced by
another one. -/
def quietBits : UInt32 := tcbRecovering ||| tcbTamperedNoFail

/-- What the entering half makes of the table and of a trace control block: the call is
left alone or delayed, or its number is replaced and a new slot is remembered. -/
structure EnterDone (vec vec' : List Int64) (tcp tcp' : Tcb) : Prop where
  insyscall : tcp'.flags &&& tcbInsyscall = tcbInsyscall
  quiet : tcp'.flags &&& quietBits = tcp.flags &&& quietBits
  call : (vec' = vec ∧ tcp'.flags &&& tcbTampered = tcp.flags &&& tcbTampered) ∨
    ∃ v d, vec' = vec ++ [v] ∧ tcp'.flags &&& tcbTampered = tcbTampered ∧
      tcp'.flags &&& tcbFiltered = 0 ∧ tcp'.injectVec = some d ∧ d.flags = injectFRetval ∧
      d.rvalIdx.toNat = vec.length

section Entering

variable {env : InjectorEnv} {h : Half} {stop : SyscallStop}

/-- The first part of `syscall_entering_trace` leaves the flags alone that matter here. -/
theorem revealExec_keeps (h : Half) (stop : SyscallStop) :
    (revealExec h stop).tcp.flags &&& (quietBits ||| tcbTampered)
      = h.tcp.flags &&& (quietBits ||| tcbTampered) := by
  unfold revealExec
  dsimp only
  split
  · split
    · exact ((keeps_clear (by decide)).comp (keeps_or (by decide))) _
    · rfl
  · rfl

theorem qualFlg_revealExec (hq : h.tcp.qualFlg &&& qualInject = 0) :
    (revealExec h stop).tcp.qualFlg &&& qualInject = 0 := by
  have hclear := clear_and_eq_zero (m := qualInject) (b := qualInject) (by decide) h.tcp.qualFlg
  unfold revealExec
  dsimp only
  split
  · split
    · exact hclear
    · exact hclear
  · exact hq

theorem qualFlg_atInjector (hq : stop.qualFlags &&& qualInject = 0) :
    (atInjector h stop).tcp.qualFlg &&& qualInject = 0 := by
  refine qualFlg_revealExec (h := syscallEnteringDecode h stop) ?_
  unfold syscallEnteringDecode
  dsimp only
  split
  · exact (keeps_or (by decide) _).trans hq
  · exact hq

theorem keeps_atInjector (h : Half) (stop : SyscallStop) :
    (atInjector h stop).tcp.flags &&& (quietBits ||| tcbTampered)
      = h.tcp.flags &&& (quietBits ||| tcbTampered) :=
  (keeps_clear (by decide) _).trans (revealExec_keeps (syscallEnteringDecode h stop) stop)

theorem injector_atInjector (h : Half) (stop : SyscallStop) :
    (atInjector h stop).injector = h.injector :=
  (revealExec_frame (syscallEnteringDecode h stop) stop).1

/-- Fewer flags of a mask. -/
theorem and_congr_mask {x y b c : UInt32} (hbc : c &&& b = b) (h : x &&& c = y &&& c) :
    x &&& b = y &&& b := by
  rw [← hbc, ← UInt32.and_assoc, h, UInt32.and_assoc]

theorem tamperEnteringFlags_delay {d : InjectData} (hd : d.flags = injectFDelayEnter) :
    tamperEnteringFlags d stop &&& (quietBits ||| tcbTampered) = 0 := by
  unfold tamperEnteringFlags
  rw [hd]
  generalize stop.scnoSet = isSet
  generalize stop.poked = poked
  revert isSet poked
  decide

theorem tamperEnteringFlags_retval {d : InjectData} (hd : d.flags = injectFRetval)
    (hset : stop.scnoSet = true) : tamperEnteringFlags d stop = tcbTampered := by
  unfold tamperEnteringFlags
  rw [hd, hset]
  generalize stop.poked = poked
  revert poked
  decide

/-- Tampering for a delay. -/
theorem keeps_tamper_delay {d : InjectData} (hinj : h.tcp.injectVec = some d)
    (hd : d.flags = injectFDelayEnter) :
    (tamperWithSyscallEntering h stop).tcp.flags &&& (quietBits ||| tcbTampered)
      = h.tcp.flags &&& (quietBits ||| tcbTampered) := by
  unfold tamperWithSyscallEntering
  rw [hinj]
  dsimp only
  split
  · exact keeps_or (tamperEnteringFlags_delay hd) _
  · rfl

theorem tamper_frame (h : Half) (stop : SyscallStop) :
    (tamperWithSyscallEntering h stop).injector = h.injector ∧
      (tamperWithSyscallEntering h stop).tcp.injectVec = h.tcp.injectVec := by
  unfold tamperWithSyscallEntering
  split
  · exact ⟨rfl, rfl⟩
  · split <;> exact ⟨rfl, rfl⟩

/-- Tampering for a return value: the number of the call is replaced. -/
theorem tamper_retval {d : InjectData} (hinj : h.tcp.injectVec = some d)
    (hd : d.flags = injectFRetval) (hrec : h.tcp.flags &&& tcbRecovering = 0)
    (hcount : stop.countersSelect = true) (hset : stop.scnoSet = true) :
    (tamperWithSyscallEntering h stop).tcp.flags = h.tcp.flags ||| tcbTampered := by
  have hnot : h.tcp.has tcbRecovering = false := bne_eq_false_iff_eq.mpr hrec
  unfold tamperWithSyscallEntering
  rw [hinj]
  dsimp only
  rw [hcount, hnot, if_pos (by decide)]
  show h.tcp.flags ||| tamperEnteringFlags d stop = _
  rw [tamperEnteringFlags_retval hd hset]

/-- What the middle part of the entering half makes of a call that gets an injected value: the
value is in its slot, the trace control block points to it, and the call is marked. -/
structure Forged (vec : List Int64) (h' : Half) (v : Int64) (d : InjectData) : Prop where
  drawn : h'.injector.retvalVec = vec ++ [v]
  tampered : h'.tcp.flags &&& tcbTampered = tcbTampered
  passed : h'.tcp.flags &&& tcbFiltered = 0
  inject : h'.tcp.injectVec = some d
  data : d.flags = injectFRetval
  slot : d.rvalIdx.toNat = vec.length

/-- The injector and the tampering that follows it. -/
theorem fuzzed_cases (hrec : h.tcp.flags &&& tcbRecovering = 0)
    (hpass : h.tcp.flags &&& tcbFiltered = 0) (hcount : stop.countersSelect = true)
    (hset : stop.scnoSet = true) (hq : h.tcp.qualFlg &&& qualInject = 0) {h' : Half}
    (hh' : h' = if (fuzzSyscallEnter env h stop).tcp.qualFlg &&& qualInject != 0 then
      tamperWithSyscallEntering (fuzzSyscallEnter env h stop) stop
      else fuzzSyscallEnter env h stop)
    (halive : (fuzzSyscallEnter env h stop).injector.died = false) :
    h'.tcp.flags &&& quietBits = h.tcp.flags &&& quietBits ∧
      ((h'.injector.retvalVec = h.injector.retvalVec ∧
        h'.tcp.flags &&& tcbTampered = h.tcp.flags &&& tcbTampered) ∨
      ∃ v d, Forged h.injector.retvalVec h' v d) := by
  -- what the injector did to the tracee, by which of the three it was
  have hent := entered_enter halive
  change Entered h.injector.retvalVec (fuzzSyscallEnter env h stop).injector.retvalVec h.tcp
    (fuzzSyscallEnter env h stop).tcp at hent
  generalize fuzzSyscallEnter env h stop = g at hh' hent
  obtain ⟨hinjector, hinject⟩ := tamper_frame g stop
  cases hent with
  | plain kept flags qual =>
    rw [qual, hq, if_neg (by decide)] at hh'
    rw [hh', flags]
    exact ⟨rfl, .inl ⟨kept, rfl⟩⟩
  | delayed d kept flags inject data =>
    -- the delay is written to the flags, beside the bits that say where the tracee is
    have hmask : h'.tcp.flags &&& (quietBits ||| tcbTampered)
        = h.tcp.flags &&& (quietBits ||| tcbTampered) := by
      have hg : g.tcp.flags &&& (quietBits ||| tcbTampered)
          = h.tcp.flags &&& (quietBits ||| tcbTampered) := by
        rw [flags]
        exact keeps_or (by decide) _
      rw [hh']
      split
      · exact (keeps_tamper_delay inject data).trans hg
      · exact hg
    have hvec : h'.injector.retvalVec = h.injector.retvalVec := by
      rw [hh']
      split
      · rw [hinjector, kept]
      · exact kept
    exact ⟨and_congr_mask (by decide) hmask, .inl ⟨hvec, and_congr_mask (by decide) hmask⟩⟩
  | forged v d drawn flags qual inject data slot =>
    -- the injector itself sets `QUAL_INJECT`, so the tampering follows at once
    have hqual : g.tcp.qualFlg &&& qualInject = qualInject := by rw [qual, or_and_self]
    rw [hqual, if_pos (by decide)] at hh'
    have hrec' : g.tcp.flags &&& tcbRecovering = 0 := by
      rw [flags]
      exact (keeps_or (by decide) _).trans hrec
    have hflags := tamper_retval inject data hrec' hcount hset
    rw [← hh', flags] at hflags
    refine ⟨?_, .inr ⟨v, d, ?_, ?_, ?_, ?_, data, slot⟩⟩
    · rw [hflags]
      exact (keeps_or (by decide) _).trans (keeps_or (by decide) _)
    · rw [hh', hinjector, drawn]
    · rw [hflags, or_and_self]
    · rw [hflags]
      exact ((keeps_or (by decide) _).trans (keeps_or (by decide) _)).trans hpass
    · rw [hh', hinject, inject]

theorem EnterDone.finish {h' : Half}
    (hquiet : h'.tcp.flags &&& quietBits = h.tcp.flags &&& quietBits)
    (hcall : (h'.injector.retvalVec = h.injector.retvalVec ∧
        h'.tcp.flags &&& tcbTampered = h.tcp.flags &&& tcbTampered) ∨
      ∃ v d, Forged h.injector.retvalVec h' v d) :
    EnterDone h.injector.retvalVec (syscallEnteringFinish h').injector.retvalVec h.tcp
      (syscallEnteringFinish h').tcp := by
  -- `TCB_INSYSCALL` is set last and is none of the bits that matter
  have hfin : ∀ {b : UInt32}, tcbInsyscall &&& b = 0 →
      (syscallEnteringFinish h').tcp.flags &&& b = h'.tcp.flags &&& b := fun hb => keeps_or hb _
  refine ⟨or_and_self _ _, (hfin (by decide)).trans hquiet, ?_⟩
  rcases hcall with ⟨hvec, htamp⟩ | ⟨v, d, hf⟩
  · exact .inl ⟨hvec, (hfin (by decide)).trans htamp⟩
  · exact .inr ⟨v, d, hf.drawn, (hfin (by decide)).trans hf.tampered,
      (hfin (by decide)).trans hf.passed, hf.inject, hf.data, hf.slot⟩

/-- **The entering half**, where ptrace works and strace was given no injections of its
own. -/
theorem traceEntering_done (hrec : h.tcp.flags &&& tcbRecovering = 0)
    (hdec : stop.decoded ≠ .bailOut) (hcount : stop.countersSelect = true)
    (hset : stop.scnoSet = true) (hq : stop.qualFlags &&& qualInject = 0)
    (halive : (traceEntering env h stop).injector.died = false) :
    EnterDone h.injector.retvalVec (traceEntering env h stop).injector.retvalVec h.tcp
      (traceEntering env h stop).tcp := by
  unfold traceEntering at halive ⊢
  dsimp only at halive ⊢
  cases hd : stop.decoded with
  | bailOut => exact absurd hd hdec
  | error => exact EnterDone.finish rfl (.inl ⟨rfl, rfl⟩)
  | ok =>
    rw [hd] at halive
    dsimp only at halive ⊢
    -- strace goes on to the end of the half
    have hdied : (syscallEnteringTrace env (syscallEnteringDecode h stop) stop).injector.died
        = false := by
      by_contra hdied
      rw [Bool.not_eq_false] at hdied
      rw [if_pos hdied, hdied] at halive
      exact absurd halive (by decide)
    rw [if_neg (by rw [hdied]; decide)]
    unfold syscallEnteringTrace at hdied ⊢
    dsimp only at hdied ⊢
    have hreveal := revealExec_keeps (syscallEnteringDecode h stop) stop
    split
    · have hfilt := (keeps_or (b := quietBits ||| tcbTampered) (m := tcbFiltered) (by decide)
        (revealExec (syscallEnteringDecode h stop) stop).tcp.flags).trans hreveal
      exact EnterDone.finish (and_congr_mask (by decide) hfilt)
        (.inl ⟨congrArg InjectorState.retvalVec
          (revealExec_frame (syscallEnteringDecode h stop) stop).1,
          and_congr_mask (by decide) hfilt⟩)
    · next hpass =>
      rw [if_neg hpass] at hdied
      change EnterDone _ (syscallEnteringFinish (if (fuzzSyscallEnter env (atInjector h stop)
        stop).injector.died = true then _ else _)).injector.retvalVec _
        (syscallEnteringFinish (if (fuzzSyscallEnter env (atInjector h stop)
          stop).injector.died = true then _ else _)).tcp
      change (if (fuzzSyscallEnter env (atInjector h stop) stop).injector.died = true then
        fuzzSyscallEnter env (atInjector h stop) stop else _ : Half).injector.died = false at hdied
      have halive' : (fuzzSyscallEnter env (atInjector h stop) stop).injector.died = false := by
        by_contra hno
        rw [Bool.not_eq_false] at hno
        rw [if_pos hno, hno] at hdied
        exact absurd hdied (by decide)
      rw [if_neg (by rw [halive']; decide)]
      have hkeep := keeps_atInjector h stop
      obtain ⟨hquiet, hcall⟩ := fuzzed_cases
        ((and_congr_mask (by decide) hkeep).trans hrec) (clear_and_eq_zero (by decide) _) hcount
        hset (qualFlg_atInjector hq) rfl halive'
      rw [injector_atInjector] at hcall
      refine EnterDone.finish (hquiet.trans (and_congr_mask (by decide) hkeep)) ?_
      refine hcall.imp_left fun hplain => ⟨hplain.1, ?_⟩
      exact hplain.2.trans (and_congr_mask (by decide) hkeep)

end Entering

/-! ## The exiting half -/

section Exiting

variable {h : Half} {stop : SyscallStop}

theorem exitingDecode_frame (h : Half) :
    (syscallExitingDecode h).injector = h.injector ∧
      (syscallExitingDecode h).tcp.injectVec = h.tcp.injectVec ∧
      ∀ {b : UInt32}, tcbHideLog &&& b = 0 →
        (syscallExitingDecode h).tcp.flags &&& b = h.tcp.flags &&& b := by
  unfold syscallExitingDecode
  split
  · exact ⟨rfl, rfl, fun hb => keeps_or hb _⟩
  · exact ⟨rfl, rfl, fun _ => rfl⟩

theorem exitingTrace_frame (h : Half) (stop : SyscallStop) :
    (syscallExitingTrace h stop).injector = h.injector ∧
      (syscallExitingTrace h stop).tcp.flags &&& quietBits = h.tcp.flags &&& quietBits := by
  -- what the exit stop writes is outside the bits that stay
  have htamper : tamperExitingFlags h.tcp stop &&& quietBits = 0 :=
    or_disjoint (ite_disjoint (by decide)) (ite_disjoint (by decide))
  unfold syscallExitingTrace
  dsimp only
  split
  · split
    · exact ⟨rfl, ((keeps_or htamper).comp (keeps_clear (by decide))) _⟩
    · exact ⟨rfl, keeps_or htamper _⟩
  · split
    · exact ⟨rfl, keeps_clear (by decide) _⟩
    · exact ⟨rfl, rfl⟩

/-- The exiting half leaves the tracee as it found it before the call. -/
theorem traceExiting_done (h : Half) (stop : SyscallStop) :
    (traceExiting h stop).injector = h.injector ∧
      (traceExiting h stop).tcp.flags &&& quietBits = h.tcp.flags &&& quietBits ∧
      (traceExiting h stop).tcp.flags &&& tcbInsyscall = 0 ∧
      (traceExiting h stop).tcp.flags &&& tcbTampered = 0 := by
  obtain ⟨hinj, -, hbits⟩ := exitingDecode_frame h
  unfold traceExiting
  dsimp only
  split
  -- decoding, tracing and finishing, each with its frame
  · obtain ⟨hinj', hquiet⟩ := exitingTrace_frame (syscallExitingDecode h) stop
    exact ⟨hinj'.trans hinj, (keeps_clear (by decide) _).trans (hquiet.trans (hbits (by decide))),
      clear_and_eq_zero (by decide) _, clear_and_eq_zero (by decide) _⟩
  · exact ⟨hinj, (keeps_clear (by decide) _).trans (hbits (by decide)),
      clear_and_eq_zero (by decide) _, clear_and_eq_zero (by decide) _⟩

theorem Tcb.has_eq_false {tcp : Tcb} {m : UInt32} (hm : tcp.flags &&& m = 0) :
    tcp.has m = false :=
  bne_eq_false_iff_eq.mpr hm

/-- The last step of the exiting half depends on the injector only. -/
theorem exitingFinish_regs {h' : Half} (hinj : h'.injector = h.injector) (regs : UserRegs) :
    (syscallExitingFinish h' regs).2 = (dstFuzzSyscallExitingFinish h.injector regs).getD regs := by
  rw [syscallExitingFinish, hinj]

/-- A call that was not tampered with gives back what the kernel returned, unless it is
wound back. -/
theorem exitResult_plain (htamp : h.tcp.flags &&& tcbTampered = 0) (regs : UserRegs) :
    exitResult h stop regs = some ((dstFuzzSyscallExitingFinish h.injector regs).getD regs) := by
  obtain ⟨hinj, -, hbits⟩ := exitingDecode_frame h
  obtain ⟨hinj', -⟩ := exitingTrace_frame (syscallExitingDecode h) stop
  have hnot : (syscallExitingDecode h).tcp.has tcbTampered = false :=
    Tcb.has_eq_false ((hbits (by decide)).trans htamp)
  -- nothing is poked into `rax` without `TCB_TAMPERED`
  have hrax : exitingRax (syscallExitingDecode h) regs.rax.toInt64 = some regs.rax.toInt64 := by
    unfold exitingRax
    split
    · unfold tamperWithSyscallExiting
      split
      · rfl
      · rw [hnot]
        rfl
    · rfl
  unfold exitResult
  dsimp only
  split
  · rw [hrax, Option.map_some, UInt64.toUInt64_toInt64, exitingFinish_regs (hinj'.trans hinj)]
  · rw [exitingFinish_regs hinj]

/-- One whose number was replaced gives back the value in its slot, with the same
exception. -/
theorem exitResult_forged {d : InjectData} {v : Int64} {regs : UserRegs}
    (hrax : regs.rax = negEnosys.toUInt64)
    (htamp : h.tcp.flags &&& tcbTampered = tcbTampered) (hpass : h.tcp.flags &&& tcbFiltered = 0)
    (hquiet : h.tcp.flags &&& quietBits = 0) (hinj : h.tcp.injectVec = some d)
    (hd : d.flags = injectFRetval) (hv : retvalGet h.injector.retvalVec d.rvalIdx = some v)
    (hread : stop.resultRead = true) :
    exitResult h stop regs = some ((dstFuzzSyscallExitingFinish h.injector
      { regs with rax := v.toUInt64 }).getD { regs with rax := v.toUInt64 }) := by
  obtain ⟨hinjector, hvec, hbits⟩ := exitingDecode_frame h
  obtain ⟨hinjector', -⟩ := exitingTrace_frame (syscallExitingDecode h) stop
  have hpass' : (syscallExitingDecode h).tcp.has tcbFiltered = false :=
    Tcb.has_eq_false ((hbits (by decide)).trans hpass)
  have htamp' : (syscallExitingDecode h).tcp.flags &&& tcbTampered = tcbTampered :=
    (hbits (by decide)).trans htamp
  -- the failure flag is one of the quiet bits, which are clear
  have hnofail : (syscallExitingDecode h).tcp.has tcbTamperedNoFail = false := by
    refine Tcb.has_eq_false ((hbits (by decide)).trans ?_)
    rw [and_congr_mask (y := 0) (c := quietBits) (by decide) (by rw [hquiet, UInt32.zero_and]),
      UInt32.zero_and]
  have hhas : (syscallExitingDecode h).tcp.has tcbTampered = true := by
    rw [Tcb.has, htamp']
    decide
  have hany : (syscallExitingDecode h).tcp.has
      (tcbTampered ||| tcbInjectDelayExit ||| tcbInjectPokeExit) = true := by
    rw [Tcb.has, bne_iff_ne]
    intro hzero
    rw [and_congr_mask (y := 0) (c := tcbTampered ||| tcbInjectDelayExit ||| tcbInjectPokeExit)
      (by decide) (by rw [hzero, UInt32.zero_and]), UInt32.zero_and] at htamp'
    exact absurd htamp' (by decide)
  -- the slot is read back by its index, in the place of the kernel's `-ENOSYS`
  have hvalue : exitingRax (syscallExitingDecode h) negEnosys = some v := by
    rw [exitingRax, if_pos hany]
    unfold tamperWithSyscallExiting
    rw [hvec, hinj]
    dsimp only
    rw [hhas, hnofail, hinjector, hv, if_neg (by decide), if_neg (by decide), Option.map_some, hd,
      if_pos (by decide)]
  unfold exitResult
  dsimp only
  rw [hpass', hread, if_pos (by decide), hrax, Int64.toInt64_toUInt64, hvalue, Option.map_some,
    exitingFinish_regs (hinjector'.trans hinjector)]

end Exiting

/-! ## The invariant -/

/-- A call under way, as the trace control block has it. -/
def CallOk (vec : List Int64) (tcp : Tcb) (c : OpenCall) : Prop :=
  match c.injected with
  | none => c.executed = true ∧ tcp.flags &&& tcbTampered = 0
  | some v => c.executed = false ∧ tcp.flags &&& tcbTampered = tcbTampered ∧
      tcp.flags &&& tcbFiltered = 0 ∧ ∃ d, tcp.injectVec = some d ∧ d.flags = injectFRetval ∧
        retvalGet vec d.rvalIdx = some v

/-- A tracee, between calls or in one. Its flags say which, and in a call they agree with the
record of how it was entered. -/
structure TcbOk (vec : List Int64) (call : Option OpenCall) (tcp : Tcb) : Prop where
  quiet : tcp.flags &&& quietBits = 0
  idle : call = none → tcp.flags &&& tcbInsyscall = 0 ∧ tcp.flags &&& tcbTampered = 0
  under : ∀ c, call = some c → tcp.flags &&& tcbInsyscall = tcbInsyscall ∧ CallOk vec tcp c

/-- Slots are never taken back. -/
theorem TcbOk.mono {vec vec' : List Int64} {call : Option OpenCall} {tcp : Tcb}
    (h : TcbOk vec call tcp) (hvec : vec <+: vec') : TcbOk vec' call tcp := by
  refine ⟨h.quiet, h.idle, fun c hc => ⟨(h.under c hc).1, ?_⟩⟩
  have hok := (h.under c hc).2
  unfold CallOk at hok ⊢
  split
  · next hnone => rwa [hnone] at hok
  · next v hv =>
    rw [hv] at hok
    -- a slot keeps its place when others are added behind it
    obtain ⟨hex, htamp, hpass, d, hinj, hd, hslot⟩ := hok
    refine ⟨hex, htamp, hpass, d, hinj, hd, ?_⟩
    obtain ⟨more, rfl⟩ := hvec
    unfold retvalGet at hslot ⊢
    rw [List.getElem?_append_left (List.getElem?_eq_some_iff.mp hslot).1]
    exact hslot

/-- A write that leaves alone what says where the tracee is. -/
theorem TcbOk.write {vec : List Int64} {call : Option OpenCall} {tcp : Tcb}
    (h : TcbOk vec call tcp) {f : UInt32 → UInt32}
    (hf : Keeps (quietBits ||| tcbInsyscall ||| tcbTampered ||| tcbFiltered) f) :
    TcbOk vec call { tcp with flags := f tcp.flags } := by
  have hin : f tcp.flags &&& tcbInsyscall = tcp.flags &&& tcbInsyscall := hf.mono (by decide) _
  have htamp : f tcp.flags &&& tcbTampered = tcp.flags &&& tcbTampered := hf.mono (by decide) _
  have hpass : f tcp.flags &&& tcbFiltered = tcp.flags &&& tcbFiltered := hf.mono (by decide) _
  refine ⟨(hf.mono (b := quietBits) (by decide) _).trans h.quiet, fun hnone => ?_, fun c hc => ?_⟩
  · exact ⟨hin.trans (h.idle hnone).1, htamp.trans (h.idle hnone).2⟩
  · obtain ⟨hsys, hok⟩ := h.under c hc
    refine ⟨hin.trans hsys, ?_⟩
    unfold CallOk at hok ⊢
    split
    · next hnone =>
      rw [hnone] at hok
      exact ⟨hok.1, htamp.trans hok.2⟩
    · next v hv =>
      rw [hv] at hok
      obtain ⟨hex, ht, hp, hdata⟩ := hok
      exact ⟨hex, htamp.trans ht, hpass.trans hp, hdata⟩

/-- The state of every tracee, as long as strace lives, and every call that is over. -/
structure CallsOk (s : TracedCalls) : Prop where
  tcbs : s.strace.injector.died = false → ∀ tid tcp, s.strace.tcbs tid = some tcp →
    TcbOk s.strace.injector.retvalVec (s.calls tid) tcp
  finished : ∀ f ∈ s.finished, f.Exact

section Steps

variable {env : InjectorEnv} {s : Strace} {tid : Nat} {tcp : Tcb}

/-- One tracee moves; the others have to see that their slots are still there. -/
theorem tcbOk_update {calls : Nat → Option OpenCall} {vec vec' : List Int64}
    {tcbs : Nat → Option Tcb} (hs : ∀ tid tcp, tcbs tid = some tcp → TcbOk vec (calls tid) tcp)
    (hvec : vec <+: vec') {o : Option Tcb} {call : Option OpenCall}
    (ho : ∀ tcp, o = some tcp → TcbOk vec' call tcp) :
    ∀ tid' tcp', Function.update tcbs tid o tid' = some tcp' →
      TcbOk vec' (Function.update calls tid call tid') tcp' := by
  intro tid' tcp' htcp'
  -- the others only have to see the table grow
  by_cases heq : tid' = tid
  · subst heq
    rw [Function.update_self] at htcp' ⊢
    exact ho tcp' htcp'
  · rw [Function.update_of_ne heq] at htcp' ⊢
    exact (hs tid' tcp' htcp').mono hvec

/-- A tracee that was just attached is in no call. -/
theorem tcbOk_attach (vec : List Int64) (f : AttachFlags) (tid : Nat) :
    TcbOk vec none ⟨tid, 0, fun _ => 0, f.toFlags, 0, none⟩ := by
  have hclear : ∀ g : AttachFlags,
      g.toFlags &&& (quietBits ||| tcbInsyscall ||| tcbTampered) = 0 := by
    rintro ⟨g, i, h, d⟩
    revert g i h d
    decide
  have hbit : ∀ b, (quietBits ||| tcbInsyscall ||| tcbTampered) &&& b = b → f.toFlags &&& b = 0 :=
    fun b hb => (and_congr_mask hb ((hclear f).trans UInt32.zero_and.symm)).trans UInt32.zero_and
  exact ⟨hbit _ (by decide), fun _ => ⟨hbit _ (by decide), hbit _ (by decide)⟩,
    fun _ hc => absurd hc (by simp)⟩

/-- What else happens to the flags of a tracee. -/
theorem keeps_event (e : TcbEvent) :
    Keeps (quietBits ||| tcbInsyscall ||| tcbTampered ||| tcbFiltered) e.flags := by
  cases e with
  | startup => exact keeps_clear (by decide)
  | ignoredSigstop => exact keeps_clear (by decide)
  | seccompFilter => exact keeps_or (by decide)
  | restartDelayed => exact keeps_clear (by decide)
  | superseded => exact keeps_or (by decide)

theorem not_entering (h : tcp.flags &&& tcbInsyscall = tcbInsyscall) : tcp.entering = false := by
  rw [Tcb.entering, Tcb.has, h]
  decide

theorem is_entering (h : tcp.flags &&& tcbInsyscall = 0) : tcp.entering = true := by
  rw [Tcb.entering, Tcb.has_eq_false h]
  rfl

/-- An `exec` that is reported inside of its call. -/
theorem stopBeforeExecve_inside (inj : InjectorState) (stop : SyscallStop)
    (h : tcp.flags &&& tcbInsyscall = tcbInsyscall) :
    (stopBeforeExecve env ⟨inj, tcp, []⟩ stop).injector = inj ∧
      (stopBeforeExecve env ⟨inj, tcp, []⟩ stop).tcp
        = { tcp with flags := tcp.flags &&& ~~~tcbCheckExecSyscall } := by
  have hin : ({ tcp with flags := tcp.flags &&& ~~~tcbCheckExecSyscall } : Tcb).entering = false :=
    not_entering ((keeps_clear (by decide) _).trans h)
  unfold stopBeforeExecve
  dsimp only [Half.write]
  rw [hin]
  exact ⟨rfl, rfl⟩

/-- **An enter stop** opens a call as the tracee has it. -/
theorem tcbOk_enter {stop : SyscallStop} (hok : TcbOk s.injector.retvalVec none tcp)
    (hdec : stop.decoded ≠ .bailOut) (hcount : stop.countersSelect = true)
    (hset : stop.scnoSet = true) (hq : stop.qualFlags &&& qualInject = 0)
    {h : Half} (hh : h = traceEntering env ⟨s.injector, tcp, []⟩ stop)
    (halive : h.injector.died = false) :
    s.injector.retvalVec <+: h.injector.retvalVec ∧
      TcbOk h.injector.retvalVec (some (openCall s (s.after tid h) tid)) h.tcp := by
  have hrec : tcp.flags &&& tcbRecovering = 0 :=
    (and_congr_mask (by decide) (hok.quiet.trans UInt32.zero_and.symm)).trans UInt32.zero_and
  have hdone := traceEntering_done (h := ⟨s.injector, tcp, []⟩) hrec hdec hcount hset hq
    (hh ▸ halive)
  rw [← hh] at hdone
  change EnterDone s.injector.retvalVec h.injector.retvalVec tcp h.tcp at hdone
  have hexec : (openCall s (s.after tid h) tid).executed = !h.tcp.has tcbTampered := by
    rw [openCall, Strace.after]
    dsimp only
    rw [Function.update_self, Option.all_some]
  have hquiet : h.tcp.flags &&& quietBits = 0 := hdone.quiet.trans hok.quiet
  have hin := hdone.insyscall
  -- the table grew if and only if a value was injected
  rcases hdone.call with ⟨hvec, htamp⟩ | ⟨v, d, hvec, htamp, hpass, hinj, hd, hslot⟩
  · have hdrawn : (openCall s (s.after tid h) tid).injected = none := by
      show h.injector.retvalVec[s.injector.retvalVec.length]? = none
      rw [hvec]
      exact List.getElem?_eq_none le_rfl
    have hclear : h.tcp.flags &&& tcbTampered = 0 := htamp.trans (hok.idle rfl).2
    refine ⟨hvec ▸ List.prefix_rfl, hquiet, fun hnone => absurd hnone (by simp), ?_⟩
    rintro c ⟨⟩
    refine ⟨hin, ?_⟩
    unfold CallOk
    rw [hdrawn, hexec, Tcb.has_eq_false hclear]
    exact ⟨rfl, hclear⟩
  · have hdrawn : (openCall s (s.after tid h) tid).injected = some v := by
      show h.injector.retvalVec[s.injector.retvalVec.length]? = some v
      rw [hvec]
      exact List.getElem?_concat_length ..
    have hhas : h.tcp.has tcbTampered = true := by
      rw [Tcb.has, htamp]
      decide
    refine ⟨hvec ▸ List.prefix_append _ _, hquiet, fun hnone => absurd hnone (by simp), ?_⟩
    rintro c ⟨⟩
    refine ⟨hin, ?_⟩
    unfold CallOk
    rw [hdrawn, hexec, hhas]
    refine ⟨rfl, htamp, hpass, d, hinj, hd, ?_⟩
    rw [retvalGet, hslot, hvec]
    exact List.getElem?_concat_length ..

/-- What the injector's last word makes of the registers that are due. -/
theorem FinishedCall.exact_of_seen {f : FinishedCall} (inj : InjectorState)
    (hexec : f.call.executed = f.call.injected.isNone) (hstored : f.stored = inj.storedRegs)
    (hseen : f.seen = some ((dstFuzzSyscallExitingFinish inj f.due).getD f.due)) : f.Exact := by
  refine ⟨hexec, fun hfar => ?_, fun stored hback => ?_⟩
  -- no stored registers are close enough to wind back to
  · have hnone : dstFuzzSyscallExitingFinish inj f.due = none := by
      rw [dstFuzzSyscallExitingFinish, ← hstored, Option.map_eq_none_iff,
        Option.filter_eq_none_iff]
      intro stored hmem hclose
      exact hfar stored ⟨hmem, of_decide_eq_true hclose⟩
    rw [hseen, hnone, Option.getD_none]
  · rw [hseen, dstFuzzSyscallExitingFinish, ← hstored, hback.1, Option.filter_some,
      if_pos (decide_eq_true hback.2)]
    rfl

/-- **An exit stop** ends a call as it should. -/
theorem exact_finishCall {stop : SyscallStop} {c : OpenCall}
    (hok : TcbOk s.injector.retvalVec (some c) tcp) (hread : stop.resultRead = true) :
    (finishCall s tcp stop c).Exact := by
  obtain ⟨-, hcall⟩ := hok.under c rfl
  unfold CallOk at hcall
  -- by whether a value was injected when the call was entered
  cases hinjected : c.injected with
  | none =>
    rw [hinjected] at hcall
    obtain ⟨hex, htamp⟩ := hcall
    have hdue : (finishCall s tcp stop c).due = kernelExit c stop.call.regs := by
      rw [FinishedCall.due, finishCall, hinjected]
    refine FinishedCall.exact_of_seen s.injector ?_ rfl ?_
    · show c.executed = c.injected.isNone
      rw [hex, hinjected]
      rfl
    · rw [hdue]
      exact exitResult_plain htamp _
  | some v =>
    rw [hinjected] at hcall
    obtain ⟨hex, htamp, hpass, d, hinj, hd, hslot⟩ := hcall
    have hdue : (finishCall s tcp stop c).due
        = { kernelExit c stop.call.regs with rax := v.toUInt64 } := by
      rw [FinishedCall.due, finishCall, hinjected]
    have hrax : (kernelExit c stop.call.regs).rax = negEnosys.toUInt64 := by
      rw [kernelExit, hex, if_neg Bool.false_ne_true]
    refine FinishedCall.exact_of_seen s.injector ?_ rfl ?_
    · show c.executed = c.injected.isNone
      rw [hex, hinjected]
      rfl
    · rw [hdue]
      exact exitResult_forged hrax htamp hpass hok.quiet hinj hd hslot hread

/-- After it the tracee is in no call. -/
theorem tcbOk_exit {stop : SyscallStop} {c : OpenCall} {h : Half}
    (hok : TcbOk s.injector.retvalVec (some c) tcp)
    (hh : h = traceExiting ⟨s.injector, tcp, []⟩ stop) :
    h.injector = s.injector ∧ TcbOk h.injector.retvalVec none h.tcp := by
  obtain ⟨hinj, hquiet, hin, htamp⟩ := traceExiting_done ⟨s.injector, tcp, []⟩ stop
  rw [← hh] at hinj hquiet hin htamp
  exact ⟨hinj, hquiet.trans hok.quiet, fun _ => ⟨hin, htamp⟩, fun _ hc => absurd hc (by simp)⟩

end Steps

section Runs

variable {env : InjectorEnv} {s : TracedCalls} {tid : Nat} {tcp : Tcb}

/-- A stop of one tracee. -/
theorem CallsOk.after (hs : CallsOk s) (halive : s.strace.injector.died = false) {h : Half}
    {call : Option OpenCall} {finished : List FinishedCall}
    (hnew : h.injector.died = false → s.strace.injector.retvalVec <+: h.injector.retvalVec ∧
      TcbOk h.injector.retvalVec call h.tcp) (hfin : ∀ f ∈ finished, f.Exact) :
    CallsOk ⟨s.strace.after tid h, Function.update s.calls tid call, finished⟩ := by
  refine ⟨fun halive' => ?_, hfin⟩
  obtain ⟨hvec, hok⟩ := hnew halive'
  exact tcbOk_update (hs.tcbs halive) hvec fun tcp' htcp' => Option.some.inj htcp' ▸ hok

/-- A stop that moves no call. -/
theorem CallsOk.same (hs : CallsOk s) (halive : s.strace.injector.died = false) {h : Half}
    (hinj : h.injector = s.strace.injector)
    (hok : TcbOk s.strace.injector.retvalVec (s.calls tid) h.tcp) :
    CallsOk { s with strace := s.strace.after tid h } := by
  have hafter : CallsOk { s with
      strace := s.strace.after tid h
      calls := Function.update s.calls tid (s.calls tid) } :=
    hs.after halive (fun _ => ⟨hinj ▸ List.prefix_rfl, hinj ▸ hok⟩) hs.finished
  rwa [Function.update_eq_self] at hafter

/-- `exec`, inside of its call. -/
theorem callsOk_execveStop (hs : CallsOk s) (halive : s.strace.injector.died = false)
    (htcp : s.strace.tcbs tid = some tcp) {stop : SyscallStop} {c : OpenCall}
    (hc : s.calls tid = some c) :
    CallsOk { s with
      strace := s.strace.after tid (stopBeforeExecve env ⟨s.strace.injector, tcp, []⟩ stop) } := by
  have htid := hs.tcbs halive tid tcp htcp
  obtain ⟨hinj, htcp'⟩ := stopBeforeExecve_inside s.strace.injector stop
    (htid.under c hc).1
  refine hs.same halive hinj ?_
  rw [htcp']
  exact htid.write (keeps_clear (by decide))

theorem callsOk_enter (hs : CallsOk s) (halive : s.strace.injector.died = false)
    (htcp : s.strace.tcbs tid = some tcp) (hc : s.calls tid = none) {stop : SyscallStop}
    (hdec : stop.decoded ≠ .bailOut) (hcount : stop.countersSelect = true)
    (hset : stop.scnoSet = true) (hq : stop.qualFlags &&& qualInject = 0) {h : Half}
    (hh : h = traceSyscall env ⟨s.strace.injector, tcp, []⟩ stop) :
    CallsOk { s with
      strace := s.strace.after tid h
      calls := Function.update s.calls tid
        (some (openCall s.strace (s.strace.after tid h) tid)) } := by
  have htid := hs.tcbs halive tid tcp htcp
  rw [hc] at htid
  -- the flags agree with the ghost record on whether this stop is an entry
  rw [traceSyscall, is_entering (htid.idle rfl).1, if_pos rfl] at hh
  exact hs.after halive (fun halive' => tcbOk_enter htid hdec hcount hset hq hh halive') hs.finished

theorem callsOk_exit (hs : CallsOk s) (halive : s.strace.injector.died = false)
    (htcp : s.strace.tcbs tid = some tcp) {c : OpenCall} (hc : s.calls tid = some c)
    {stop : SyscallStop} (hread : stop.resultRead = true) {h : Half}
    (hh : h = traceSyscall env ⟨s.strace.injector, tcp, []⟩ stop) :
    CallsOk {
      strace := s.strace.after tid h
      calls := Function.update s.calls tid none
      finished := s.finished ++ [finishCall s.strace tcp stop c] } := by
  have htid := hs.tcbs halive tid tcp htcp
  rw [hc] at htid
  rw [traceSyscall, not_entering (htid.under c rfl).1, if_neg Bool.false_ne_true] at hh
  obtain ⟨hinj, hnew⟩ := tcbOk_exit htid hh
  refine hs.after halive (fun _ => ⟨hinj ▸ List.prefix_rfl, hnew⟩) fun f hf => ?_
  rcases List.mem_append.mp hf with hf | hf
  · exact hs.finished f hf
  · rw [List.mem_singleton.mp hf]
    exact exact_finishCall htid hread

/-- One input, whoever it is about. -/
theorem callsOk_step (env : InjectorEnv) (s : TracedCalls) (input : StraceInput) (hs : CallsOk s)
    (hok : PtraceWorks s input) : CallsOk (stepCalls env s input) := by
  unfold stepCalls
  split
  · exact hs
  next hdied =>
  have halive : s.strace.injector.died = false := by simpa using hdied
  have htcbs := hs.tcbs halive
  -- a missing tracee makes every stop a no-op, and the rest goes by what the stop is
  cases input with
  | attach tid flags =>
    dsimp only
    rw [stepStrace, halive, if_neg Bool.false_ne_true]
    refine ⟨fun _ => tcbOk_update htcbs List.prefix_rfl fun tcp htcp => ?_, hs.finished⟩
    obtain rfl := Option.some.inj htcp
    exact tcbOk_attach _ flags tid
  | drop tid =>
    dsimp only
    rw [stepStrace, halive, if_neg Bool.false_ne_true]
    exact ⟨fun _ => tcbOk_update htcbs List.prefix_rfl fun _ htcp => absurd htcp (by simp),
      hs.finished⟩
  | event tid e =>
    dsimp only
    cases htcp : s.strace.tcbs tid with
    | none =>
      rw [stepStrace_missing (.event tid e) htcp nofun nofun]
      exact hs
    | some tcp =>
      rw [stepStrace_handled (.event tid e) halive htcp nofun nofun]
      exact hs.same halive rfl ((htcbs tid tcp htcp).write (keeps_event e))
  | execveStop tid stop =>
    dsimp only
    cases htcp : s.strace.tcbs tid with
    | none =>
      rw [stepStrace_missing (.execveStop tid stop) htcp nofun nofun]
      exact hs
    | some tcp =>
      obtain ⟨c, hc⟩ := Option.isSome_iff_exists.mp hok
      rw [stepStrace_handled (.execveStop tid stop) halive htcp nofun nofun]
      exact callsOk_execveStop hs halive htcp hc
  | syscallStop tid stop =>
    dsimp only
    cases htcp : s.strace.tcbs tid with
    | none => exact hs
    | some tcp =>
      rw [stepStrace_handled (.syscallStop tid stop) halive htcp nofun nofun]
      cases hcall : s.calls tid with
      | none =>
        simp only [PtraceWorks, hcall] at hok
        obtain ⟨hdec, hcount, hset, hq⟩ := hok
        exact callsOk_enter hs halive htcp hcall hdec hcount hset hq rfl
      | some c =>
        simp only [PtraceWorks, hcall] at hok
        exact callsOk_exit hs halive htcp hcall hok rfl

end Runs

/-- **What a call gives back**: for every random file, every application and every
interleaving of the stops of its threads, where ptrace works, a call for which the injector
drew a value is not executed and gives back exactly that value, and every other call is
executed and gives back what the kernel returned. Where the exit stop meets a pending
duplication with registers close to the stored ones, the thread is wound back instead. -/
theorem results_exact (env : InjectorEnv) (file : List UInt8) (hashEnv : HashEnv)
    (shared : Shared) (ins : List StraceInput)
    (hok : Steps (stepCalls env) PtraceWorks (.init file hashEnv shared) ins) :
    ∀ f ∈ (run (stepCalls env) (.init file hashEnv shared) ins).finished, f.Exact := by
  have hinit : CallsOk (.init file hashEnv shared) :=
    ⟨fun _ _ _ h => absurd h (by simp [TracedCalls.init, Strace.init]),
      fun f hf => absurd hf List.not_mem_nil⟩
  exact (run_inv CallsOk (callsOk_step env) hinit hok).finished

/-- The stop of a thread whose `sendto` has returned 16. -/
def sentSixteen : SyscallStop :=
  { socketSendStop with call := { socketSend with regs := { socketSend.regs with rax := 16 } } }

/-- The first thread's send is to fail with `EAGAIN` and the second thread's to be duplicated;
the first exits after the second has entered. -/
def sendsInterleaved : List StraceInput :=
  [.attach 1 ⟨false, false, false, false⟩, .attach 2 ⟨false, false, false, false⟩,
    .syscallStop 1 socketSendStop, .syscallStop 2 socketSendStop,
    .syscallStop 1 socketSendStop, .syscallStop 2 sentSixteen]

/-- The failed call: its number was replaced, so that two registers differ from those of the
duplicated call and `-EAGAIN` stays. -/
def failedSend : FinishedCall where
  call := ⟨some (-11), false⟩
  regs := { socketSend.regs with rax := negEnosys.toUInt64, origRax := noSyscall }
  stored := some socketSend.regs
  seen := some { socketSend.regs with rax := (-11 : Int64).toUInt64, origRax := noSyscall }

theorem results_exact_interleaved :
    failedSend ∈ (run (stepCalls ⟨false, none⟩)
        (.init [200, 1, 0, 200, 3] ⟨false, 0⟩ ⟨fun _ => 0, 0⟩) sendsInterleaved).finished ∧
      failedSend.Exact :=
  ⟨by decide, results_exact ⟨false, none⟩ [200, 1, 0, 200, 3] ⟨false, 0⟩ ⟨fun _ => 0, 0⟩
    sendsInterleaved ⟨trivial, trivial, ⟨nofun, rfl, rfl, by decide⟩, ⟨nofun, rfl, rfl, by decide⟩,
      rfl, rfl, trivial⟩ _ (by decide)⟩

end DistFuzz.Injector
