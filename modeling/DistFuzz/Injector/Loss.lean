import DistFuzz.Injector.Decode
import DistFuzz.Injector.MessageLength

/-!
# What the application gets back for a lost call
(strace/src/dst_fuzz.c:367–374, retval.c, syscall.c:556–587)

For `LOST` the system call is not executed and the length computed for it is
handed to the application as its result, through the table of return values. A
complete send returns the number of bytes, and `sendmmsg` the number of messages.

- `forgedRetval`: what `tamper_with_syscall_exiting` sets as the result.
- `SocketSend`, `fullSuccess`: the calls that send, and what they return when
  everything was sent.
- `DrawsLost`: what makes a call lost, none of it in its memory
  (`drawsLost_of_lost`, `forged_of_drawsLost`).
- `lost_retval_iff`: when the forged result is that of a complete send.
-/

namespace DistFuzz.Injector

/-! ## Forged results -/

/-- `retval_get`: `none` is `error_func_msg_and_die`. -/
def retvalGet (vec : List Int64) (idx : UInt16) : Option Int64 := vec[idx.toNat]?

/-- The result that `tamper_with_syscall_exiting` sets for a call, if any. -/
def forgedRetval (h : Handled) : Option Int64 :=
  h.tcp.injectVec.bind fun d =>
    if d.flags &&& injectFRetval = 0 then none
    else retvalGet h.injector.retvalVec d.rvalIdx

/-- The call was lost, on a socket. -/
def Lost (h : Handled) : Prop :=
  ∃ r, h.outcome = .recorded r ∧ r.injected = some .lost ∧ r.isFile = false

/-- The calls that send on a socket. -/
inductive SocketSend where
  | write
  | writev
  | sendto
  | sendmsg
  | sendmmsg
deriving DecidableEq, Repr

/-- Their numbers. -/
def SocketSend.scno : SocketSend → UInt64
  | .write => 1
  | .writev => 20
  | .sendto => 44
  | .sendmsg => 46
  | .sendmmsg => 307

/-- Where the injector takes their length from. -/
def SocketSend.source : SocketSend → LengthSource
  | .write => .arg
  | .writev => .iovec
  | .sendto => .arg
  | .sendmsg => .msg
  | .sendmmsg => .mmsg

/-- What the kernel returns when everything was sent: the bytes of all buffers, and
for `sendmmsg` the number `vlen` of messages. -/
def fullSuccess (mem : TraceeMemory) (tcp : Tcb) : SocketSend → Nat
  | .write => tcp.countArg.toNat
  | .writev => iovTotal mem tcp.bufferArg tcp.countArg
  | .sendto => tcp.countArg.toNat
  | .sendmsg => msgTotal mem tcp.bufferArg
  | .sendmmsg => tcp.countArg.toNat

/-- The application gets back what it would for a complete send. -/
def LooksLikeSuccess (env : InjectorEnv) (s : InjectorState) (c : Call) (k : SocketSend) : Prop :=
  ∃ v, forgedRetval (dstFuzzSyscallEnter env s c) = some v ∧
    v.toUInt64.toNat = fullSuccess c.mem c.tcp k % 2 ^ 64

/-- What the memory has to hold for that. -/
def LengthsAgree (mem : TraceeMemory) (tcp : Tcb) : SocketSend → Prop
  | .write => True
  | .writev => True
  | .sendto => True
  | .sendmsg => strideTotal mem tcp.bufferArg ≡ msgTotal mem tcp.bufferArg [MOD 2 ^ 64]
  | .sendmmsg => mmsgStrideTotal mem tcp.bufferArg tcp.countArg ≡ tcp.countArg.toNat [MOD 2 ^ 64]

theorem syscallKind_scno (k : SocketSend) : syscallKind k.scno = some (true, k.source) := by
  cases k <;> rfl

/-! ## Lost calls -/

/-- A call the injector handles draws `LOST`, and the table of return values has
room. -/
structure DrawsLost (env : InjectorEnv) (s : InjectorState) (c : Call) (isSend : Bool)
    (source : LengthSource) (kind : FileKind) : Prop where
  alive : s.died = false
  regs : s.storedRegs = none
  sys : syscallKind c.tcp.scno = some (isSend, source)
  screened : screen env c = some kind
  faults : env.noFault = false
  byte : 50 ≤ s.random.getRandomUint8.1
  event : (chooseEvent isSend kind s.random.getRandomUint8.2 s.netPartition).event c.pastEvents
    = some .lost
  room : ¬(UInt16.ofNat s.retvalVec.length).toNat < s.retvalVec.length

section Lost

variable {env : InjectorEnv} {s : InjectorState} {c : Call} {isSend : Bool}
  {source : LengthSource} {kind : FileKind}

/-- `retval_get` finds what `retval_new` put in. -/
theorem retvalGet_new {vec : List Int64} (hroom : ¬(UInt16.ofNat vec.length).toNat < vec.length)
    (rval : Int64) : retvalGet (vec ++ [rval]) (UInt16.ofNat vec.length) = some rval := by
  have hidx : (UInt16.ofNat vec.length).toNat = vec.length := by
    rw [UInt16.toNat_ofNat'] at hroom ⊢
    exact le_antisymm (Nat.mod_le _ _) (Nat.le_of_not_lt hroom)
  rw [retvalGet, hidx, List.getElem?_concat_length]

/-- How a call that draws `LOST` ends: its length is the last entry of the table,
and its trace control block refers to it. -/
theorem enter_of_drawsLost (h : DrawsLost env s c isSend source kind) :
    ∃ s' tcp r, dstFuzzSyscallEnter env s c = exitEvent s' tcp (callLength c source) r ∧
      r.injected = some .lost ∧ r.isFile = kind.isFile ∧
      s'.retvalVec = s.retvalVec ++ [(callLength c source).toInt64] ∧
      tcp.injectVec = some { freshData with
        flags := injectFRetval, rvalIdx := UInt16.ofNat s.retvalVec.length } := by
  rw [enter_of_drawn h.alive h.regs h.sys h.screened h.faults h.byte, injectFault]
  dsimp only
  rw [h.event]
  simp only [applyEvent, injectRetval, retvalNew, if_neg h.room, Option.map_some]
  exact ⟨_, _, _, rfl, rfl, rfl, rfl, rfl⟩

/-- A lost call gets its length as the result. -/
theorem forged_of_drawsLost (h : DrawsLost env s c isSend source kind) :
    forgedRetval (dstFuzzSyscallEnter env s c) = some (callLength c source).toInt64 := by
  obtain ⟨s', tcp, r, hent, -, -, hvec, hinject⟩ := enter_of_drawsLost h
  rw [hent]
  simp only [exitEvent, forgedRetval, hinject, hvec, Option.bind_some]
  rw [if_neg (by decide)]
  exact retvalGet_new h.room _

/-- Drawing `LOST` on a socket loses the call. -/
theorem lost_of_drawsLost (h : DrawsLost env s c isSend source kind) (hkind : kind.isFile = false) :
    Lost (dstFuzzSyscallEnter env s c) := by
  obtain ⟨s', tcp, r, hent, hlost, hfile, -, -⟩ := enter_of_drawsLost h
  rw [hent]
  exact ⟨r, rfl, hlost, hfile.trans hkind⟩

/-- What a lost call has drawn. -/
theorem drawsLost_of_lost (h : Lost (dstFuzzSyscallEnter env s c)) :
    ∃ isSend source kind, DrawsLost env s c isSend source kind := by
  obtain ⟨r, hout, hlost, -⟩ := h
  rcases enter_cases env s c with heq | ⟨regs, -, -, -, heq⟩ | ⟨s', kind, isSend, source, -, heq⟩ |
    ⟨kind, isSend, source, hregs, halive, hsys, hscr, hno, hbyte, heq⟩
  · rw [heq] at hout
    cases hout
  · rw [heq] at hout
    cases hout
  · rw [heq] at hout
    obtain rfl := Outcome.recorded.inj hout
    cases hlost
  · have hevent := injectFault_event { s with random := s.random.getRandomUint8.2 } c kind isSend
      (callLength c source) (if isSend then writeErrorCodes else readErrorCodes)
    rw [← heq, hout] at hevent
    obtain rfl := Option.some.inj hevent
    refine ⟨isSend, source, kind, halive, hregs, hsys, hscr, hno, hbyte, hlost, fun hfull => ?_⟩
    -- without room the tracer dies
    rw [heq, injectFault] at hout
    dsimp only at hout hlost
    rw [hlost] at hout
    simp only [applyEvent, injectRetval, retvalNew, if_pos hfull, Option.map_none] at hout
    cases hout

/-- The memory of a call does not matter for whether it is lost. -/
theorem DrawsLost.withMem (h : DrawsLost env s c isSend source kind) (mem : TraceeMemory) :
    DrawsLost env s { c with mem := mem } isSend source kind :=
  ⟨h.alive, h.regs, h.sys, h.screened, h.faults, h.byte, h.event, h.room⟩

/-- **One lost call** looks like a complete send exactly if the lengths in memory
agree. -/
theorem looksLikeSuccess_iff {k : SocketSend} (hscno : c.tcp.scno = k.scno)
    (h : DrawsLost env s c isSend source kind) :
    LooksLikeSuccess env s c k ↔ LengthsAgree c.mem c.tcp k := by
  have hsource : source = k.source := by
    have hsys := h.sys
    rw [hscno, syscallKind_scno] at hsys
    exact (Prod.mk.inj (Option.some.inj hsys)).2.symm
  have hforged : LooksLikeSuccess env s c k ↔
      (callLength c k.source).toNat = fullSuccess c.mem c.tcp k % 2 ^ 64 := by
    unfold LooksLikeSuccess
    rw [forged_of_drawsLost h, hsource]
    simp [UInt64.toUInt64_toInt64]
  rw [hforged]
  have harg : c.tcp.countArg.toNat = c.tcp.countArg.toNat % 2 ^ 64 :=
    (Nat.mod_eq_of_lt c.tcp.countArg.toNat_lt).symm
  -- the first three kinds get their own length; what is added up for the others may differ
  cases k with
  | write => exact iff_of_true harg trivial
  | writev => exact iff_of_true (getLengthFromIovec_toNat c.mem c.tcp 1 2) trivial
  | sendto => exact iff_of_true harg trivial
  | sendmsg =>
    show (getLengthFromMsg c.mem c.tcp 1).toNat = _ ↔ _
    rw [getLengthFromMsg_toNat]
    rfl
  | sendmmsg =>
    show (getLengthFromMmsg c.mem c.tcp 1 2).toNat = _ ↔ _
    rw [getLengthFromMmsg_toNat]
    rfl

end Lost

/-- What is added up for `sendmmsg` is the number of messages in every memory only if
there is none: with no buffers it is zero. -/
theorem mmsgStrideTotal_modEq_vlen_iff (vec vlen : UInt64) :
    (∀ mem, mmsgStrideTotal mem vec vlen ≡ vlen.toNat [MOD 2 ^ 64]) ↔ vlen = 0 := by
  constructor
  · intro h
    have hzero : mmsgStrideTotal (fun _ => 0) vec vlen = 0 :=
      Finset.sum_eq_zero fun i _ => Finset.sum_eq_zero fun j hj => absurd hj (by simp [msgIovlen])
    have hmod := h fun _ => 0
    rw [hzero] at hmod
    refine UInt64.toNat_inj.mp (Eq.trans ?_ hmod.symm)
    exact (Nat.mod_eq_of_lt vlen.toNat_lt).symm
  · rintro rfl mem
    rfl

/-- **Injected loss.** For every lost call on a socket, `write`, `writev` and `sendto`
return what a complete send does; `sendmsg` and `sendmmsg` do so exactly if the
lengths that are added up happen to agree with it. Whatever the lengths in memory
are, `sendmsg` does so exactly if it has at most one buffer, and `sendmmsg` if it
sends no message. -/
theorem lost_retval_iff (env : InjectorEnv) (s : InjectorState) (c : Call) (k : SocketSend)
    (hscno : c.tcp.scno = k.scno) (hlost : Lost (dstFuzzSyscallEnter env s c)) :
    (LooksLikeSuccess env s c k ↔ LengthsAgree c.mem c.tcp k) ∧
    ((∀ mem, (k = .sendmsg → msgIovlen mem c.tcp.bufferArg = msgIovlen c.mem c.tcp.bufferArg) →
        LooksLikeSuccess env s { c with mem := mem } k) ↔
      (k = .sendmsg → (msgIovlen c.mem c.tcp.bufferArg).toNat ≤ 1) ∧
      (k = .sendmmsg → c.tcp.countArg = 0)) := by
  obtain ⟨isSend, source, kind, hdraws⟩ := drawsLost_of_lost hlost
  have hmem : ∀ mem, LooksLikeSuccess env s { c with mem := mem } k ↔ LengthsAgree mem c.tcp k :=
    fun mem => looksLikeSuccess_iff hscno (hdraws.withMem mem)
  refine ⟨looksLikeSuccess_iff hscno hdraws, ?_⟩
  simp only [hmem]
  cases k with
  | write => simp [LengthsAgree]
  | writev => simp [LengthsAgree]
  | sendto => simp [LengthsAgree]
  | sendmsg =>
    simp only [LengthsAgree, forall_const, reduceCtorEq, IsEmpty.forall_iff, and_true]
    exact strideTotal_modEq_iff c.tcp.bufferArg _
  | sendmmsg =>
    simp only [LengthsAgree, forall_const, reduceCtorEq, IsEmpty.forall_iff, true_and]
    exact mmsgStrideTotal_modEq_vlen_iff c.tcp.bufferArg c.tcp.countArg

/-- With a random file that starts with the bytes `200` and `2`, a first send on a
socket is lost. -/
theorem drawsLost_first {c : Call} {k : SocketSend} (hscno : c.tcp.scno = k.scno)
    (hscr : screen ⟨false, none⟩ c = some ⟨false, false⟩) :
    DrawsLost ⟨false, none⟩ (.init [200, 2] ⟨false, 0⟩ ⟨fun _ => 0, 0⟩) c true k.source
      ⟨false, false⟩ where
  alive := rfl
  regs := rfl
  sys := hscno ▸ syscallKind_scno k
  screened := hscr
  faults := rfl
  byte := by decide
  event := rfl
  room := by decide

/-- A lost `sendto` returns its length. -/
theorem socketSend_lost_retval :
    Lost (dstFuzzSyscallEnter ⟨false, none⟩ (.init [200, 2] ⟨false, 0⟩ ⟨fun _ => 0, 0⟩)
        socketSend) ∧
      LooksLikeSuccess ⟨false, none⟩ (.init [200, 2] ⟨false, 0⟩ ⟨fun _ => 0, 0⟩) socketSend
        .sendto := by
  have hlost := lost_of_drawsLost (drawsLost_first (c := socketSend) (k := .sendto) rfl (by decide))
    rfl
  exact ⟨hlost, (lost_retval_iff _ _ socketSend .sendto rfl hlost).1.mpr trivial⟩

/-- `sendmmsg` of two messages of three and five bytes. -/
def sendTwoMessages : Call :=
  { tcp := sendTwo
    isFuzzing := true
    filePath := some "socket:[1]".toList
    regs := .zero
    mem := twoMessages
    pastEvents := none }

/-- If it is lost, the application is told that three messages were sent. -/
theorem sendTwoMessages_lost_retval :
    Lost (dstFuzzSyscallEnter ⟨false, none⟩ (.init [200, 2] ⟨false, 0⟩ ⟨fun _ => 0, 0⟩)
        sendTwoMessages) ∧
      forgedRetval (dstFuzzSyscallEnter ⟨false, none⟩ (.init [200, 2] ⟨false, 0⟩ ⟨fun _ => 0, 0⟩)
        sendTwoMessages) = some 3 ∧
      ¬LooksLikeSuccess ⟨false, none⟩ (.init [200, 2] ⟨false, 0⟩ ⟨fun _ => 0, 0⟩) sendTwoMessages
        .sendmmsg := by
  have hdraws := drawsLost_first (c := sendTwoMessages) (k := .sendmmsg) rfl (by decide)
  have hforged := forged_of_drawsLost hdraws
  refine ⟨lost_of_drawsLost hdraws rfl, hforged.trans (by decide), ?_⟩
  rintro ⟨v, hv, hright⟩
  obtain rfl := Option.some.inj (hforged.symm.trans hv)
  exact absurd hright (by decide)

end DistFuzz.Injector
