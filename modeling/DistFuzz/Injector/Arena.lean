import DistFuzz.Fuzzer.Havoc
import DistFuzz.Harness.SplitFiles
import DistFuzz.Injector.Decode
import Mathlib.Tactic.Ring

/-!
# The injection arenas (strace/src/retval.c:26–41, delay.c:34–47)

Each failed, lost or partitioned call takes a slot for its return value, each delayed one
a slot for its delay. Slots are never given back, their numbers have 16 bits, and the
tracer dies over slot 65536.

What a node can spend is its share of the test case. A return value costs two bytes: the
fault byte, and the one that picks the event or keeps the partition up, which is not zero
and therefore not past the end. A delay costs four, or what is left.

- `left`: the bytes still unread.
- `Solvent`: slots taken and bytes left, against the length of the file; kept by every
  call as long as the file is too short for the slots (`solvent_step`).
- `lossy_run`: a file that pays for every slot, and the calls that take them.
- `arenas_hold_iff`: the tracer survives every file of a node exactly if the shares are
  shorter than 131074 bytes.
-/

namespace DistFuzz

open DistFuzz.Lib

/-! ### Bytes left -/

namespace RandomFile

/-- The bytes still unread. -/
def left (r : RandomFile) : Nat := r.fuzzFileArray.length - r.fuzzFileIndex.toNat

theorem readByte_left {r : RandomFile} (hs : r.Short) : r.readByte.2.left = r.left - 1 := by
  by_cases h : r.fuzzFileIndex.toNat < r.fuzzFileArray.length
  · rw [readByte_inside h, left, left, index_succ hs h]
    exact Nat.sub_add_eq ..
  · have hend : r.AtEnd := Nat.le_of_not_lt h
    rw [readByte_atEnd hend, left, Nat.sub_eq_zero_of_le hend]

theorem left_pos_of_readByte {r : RandomFile} (h : r.readByte.1 ≠ 0) : 0 < r.left := by
  by_contra hleft
  have hend : r.AtEnd := Nat.le_of_sub_eq_zero (Nat.eq_zero_of_not_pos hleft)
  exact h (congrArg Prod.fst (readByte_atEnd hend))

theorem atEnd_of_left {r : RandomFile} (h : r.left = 0) : r.AtEnd := Nat.le_of_sub_eq_zero h

/-- Reading on leaves no more. -/
theorem Reads.left_le {r r' : RandomFile} (h : Reads r r') (hs : r.Short) : r'.left ≤ r.left := by
  induction h with
  | refl => exact le_rfl
  | @step r r' _ ih =>
    have hrest := ih (readByte_short hs)
    rw [readByte_left hs] at hrest
    omega

end RandomFile

namespace Injector

/-! ### What a fault costs -/

/-- The tables hold `2 ^ 16` slots. -/
def maxSlots : Nat := 2 ^ 16

theorem slot_fits_iff {α : Type*} {vec : List α} :
    ¬(UInt16.ofNat vec.length).toNat < vec.length ↔ vec.length < maxSlots := by
  rw [UInt16.toNat_ofNat', maxSlots]
  omega

/-- At the end of the file every event picked is a delay: the byte that would keep a
partition up is even, the one that picks the event is zero. -/
theorem chooseEvent_atEnd {r : RandomFile} (h : r.AtEnd) (isSend : Bool) (kind : FileKind)
    (net : Bool) (pastEvents : Option InjectEvent) :
    (chooseEvent isSend kind r net).event pastEvents = some .delay := by
  have hread : r.getRandomUint8 = (0, r) := RandomFile.readByte_atEnd h
  have hdraw : drawIndex isSend kind.isFile r = 0 := by
    rw [drawIndex, hread]
    exact Nat.zero_mod _
  have hchoice : (chooseEvent isSend kind r net).index = some 0 := by
    rw [chooseEvent, hread]
    split
    · exact congrArg some hdraw
    · exact congrArg some hdraw
  rw [Choice.event, hchoice]
  rfl

/-- Picking an event reads a byte at least. -/
theorem chooseEvent_left {r : RandomFile} (hs : r.Short) (isSend : Bool) (kind : FileKind)
    (net : Bool) : (chooseEvent isSend kind r net).random.left ≤ r.left - 1 := by
  have hone := RandomFile.readByte_left hs
  have htwo := RandomFile.readByte_left (RandomFile.readByte_short hs)
  rw [chooseEvent]
  split
  · dsimp only
    split
    · show r.readByte.2.readByte.2.left ≤ r.left - 1
      omega
    · exact hone.le
  · exact hone.le

/-- The switch takes a slot for a delay, or one for a return value, or none. -/
theorem applyEvent_shape (s : InjectorState) (c : Call) (kind : FileKind) (length : UInt64)
    (errorCodes : List Int64) (ev : Option InjectEvent) :
    (ev = some .delay ∧ applyEvent s c kind length errorCodes ev = injectDelay s c.tcp) ∨
    (ev ≠ some .delay ∧ ∃ t : InjectorState, t.retvalVec = s.retvalVec ∧
      t.delayDataVec = s.delayDataVec ∧
      ((∃ rval, applyEvent s c kind length errorCodes ev = injectRetval t c.tcp rval) ∨
        ∃ tcp, applyEvent s c kind length errorCodes ev = some (t, tcp))) := by
  rcases ev with _ | ev
  · exact .inr ⟨by simp, s, rfl, rfl, .inr ⟨_, rfl⟩⟩
  -- every event but a delay takes a slot for a return value, or none
  · cases ev with
    | delay => exact .inl ⟨rfl, rfl⟩
    | fail =>
      rw [applyEvent, injectFail]
      split
      · exact .inr ⟨by simp, s, rfl, rfl, .inl ⟨_, rfl⟩⟩
      · exact .inr ⟨by simp, { s with random := s.random.getRandomUint8.2 }, rfl, rfl,
          .inl ⟨_, rfl⟩⟩
    | lost => exact .inr ⟨by simp, s, rfl, rfl, .inl ⟨_, rfl⟩⟩
    | dup => exact .inr ⟨by simp, { s with storedRegs := some c.regs }, rfl, rfl, .inr ⟨_, rfl⟩⟩
    | netpart => exact .inr ⟨by simp, { s with netPartition := true }, rfl, rfl, .inl ⟨_, rfl⟩⟩
    | numInjectEvents => exact .inr ⟨by simp, s, rfl, rfl, .inr ⟨_, rfl⟩⟩

/-- A slot for a return value, or the tracer dies over a full table. -/
theorem injectRetval_slots (s : InjectorState) (tcp : Tcb) (rval : Int64) :
    (injectRetval s tcp rval = none ∧ maxSlots ≤ s.retvalVec.length) ∨
    ∃ s' tcp', injectRetval s tcp rval = some (s', tcp') ∧
      s'.retvalVec.length = s.retvalVec.length + 1 ∧ s'.delayDataVec = s.delayDataVec := by
  cases h : injectRetval s tcp rval with
  | none =>
    rw [injectRetval, Option.map_eq_none_iff, retvalNew] at h
    split at h
    · next hfull => exact .inl ⟨rfl, Nat.le_of_not_lt fun hlt => slot_fits_iff.mpr hlt hfull⟩
    · cases h
  | some p =>
    rw [injectRetval, Option.map_eq_some_iff] at h
    obtain ⟨slot, hslot, rfl⟩ := h
    rw [retvalNew] at hslot
    split at hslot
    · cases hslot
    · cases hslot
      exact .inr ⟨_, _, rfl, List.length_append, rfl⟩

/-- And the same for a delay, which also reads two bytes. -/
theorem injectDelay_slots {s : InjectorState} (hs : s.random.Short) (tcp : Tcb) :
    (injectDelay s tcp = none ∧ maxSlots ≤ s.delayDataVec.length) ∨
    ∃ s' tcp', injectDelay s tcp = some (s', tcp') ∧ s'.retvalVec = s.retvalVec ∧
      s'.delayDataVec.length = s.delayDataVec.length + 1 ∧
      s'.random.left ≤ s.random.left - 2 := by
  cases h : injectDelay s tcp with
  | none =>
    rw [injectDelay, Option.map_eq_none_iff, allocDelayData] at h
    split at h
    · next hfull => exact .inl ⟨rfl, Nat.le_of_not_lt fun hlt => slot_fits_iff.mpr hlt hfull⟩
    · cases h
  | some p =>
    rw [injectDelay, Option.map_eq_some_iff] at h
    obtain ⟨slot, hslot, rfl⟩ := h
    rw [allocDelayData] at hslot
    split at hslot
    · cases hslot
    · cases hslot
      refine .inr ⟨_, _, rfl, rfl, List.length_append, ?_⟩
      -- the delay is drawn from two bytes of the stream
      have hone := RandomFile.readByte_left hs
      have htwo := RandomFile.readByte_left (RandomFile.readByte_short hs)
      show s.random.readByte.2.readByte.2.left ≤ s.random.left - 2
      omega

/-- The slots taken by the switch: one for a delay, which reads two bytes, or one at most
for a return value. -/
theorem applyEvent_slots {s s' : InjectorState} {c : Call} {kind : FileKind} {length : UInt64}
    {errorCodes : List Int64} {ev : Option InjectEvent} {tcp : Tcb} (hs : s.random.Short)
    (h : applyEvent s c kind length errorCodes ev = some (s', tcp)) :
    (ev = some .delay ∧ s'.retvalVec = s.retvalVec ∧
      s'.delayDataVec.length = s.delayDataVec.length + 1 ∧
      s'.random.left ≤ s.random.left - 2) ∨
    (ev ≠ some .delay ∧ s'.retvalVec.length ≤ s.retvalVec.length + 1 ∧
      s'.delayDataVec = s.delayDataVec) := by
  rcases applyEvent_shape s c kind length errorCodes ev with
    ⟨hev, heq⟩ | ⟨hev, t, hret, hdel, ⟨rval, heq⟩ | ⟨tcp', heq⟩⟩
  · rcases injectDelay_slots hs c.tcp with ⟨hnone, -⟩ | ⟨u, tcp', hsome, hslots⟩
    · cases (hnone.symm.trans heq.symm).trans h
    · cases (hsome.symm.trans heq.symm).trans h
      exact .inl ⟨hev, hslots⟩
  · rcases injectRetval_slots t c.tcp rval with ⟨hnone, -⟩ | ⟨u, tcp', hsome, hlen, hframe⟩
    · cases (hnone.symm.trans heq.symm).trans h
    · cases (hsome.symm.trans heq.symm).trans h
      exact .inr ⟨hev, (hlen.trans (by rw [hret])).le, hframe.trans hdel⟩
  · cases heq.symm.trans h
    exact .inr ⟨hev, by rw [hret]; exact Nat.le_succ _, hdel⟩

/-- The tracer dies only over a full table: that of the delays for a delay, that of the
return values for anything else. -/
theorem full_of_applyEvent {s : InjectorState} {c : Call} {kind : FileKind} {length : UInt64}
    {errorCodes : List Int64} {ev : Option InjectEvent} (hs : s.random.Short)
    (h : applyEvent s c kind length errorCodes ev = none) :
    (ev = some .delay ∧ maxSlots ≤ s.delayDataVec.length) ∨
      (ev ≠ some .delay ∧ maxSlots ≤ s.retvalVec.length) := by
  rcases applyEvent_shape s c kind length errorCodes ev with
    ⟨hev, heq⟩ | ⟨hev, t, hret, -, ⟨rval, heq⟩ | ⟨tcp', heq⟩⟩
  · rcases injectDelay_slots hs c.tcp with ⟨-, hfull⟩ | ⟨u, tcp', hsome, -⟩
    · exact .inl ⟨hev, hfull⟩
    · cases (hsome.symm.trans heq.symm).trans h
  · rcases injectRetval_slots t c.tcp rval with ⟨-, hfull⟩ | ⟨u, tcp', hsome, -⟩
    · exact .inr ⟨hev, hret ▸ hfull⟩
    · cases (hsome.symm.trans heq.symm).trans h
  · cases heq.symm.trans h

/-! ### Files too short for the slots -/

/-- The account of an injector that was given `total` bytes: the slots it has taken were paid for
with bytes of the stream, two for a return value and four for a delay. -/
structure Solvent (total : Nat) (s : InjectorState) : Prop where
  alive : s.died = false
  short : s.random.Short
  retvals : 2 * s.retvalVec.length + s.random.left ≤ total
  delays : s.delayDataVec.length + (s.random.left + 3) / 4 ≤ (total + 3) / 4

/-- Reading alone keeps the account. -/
theorem Solvent.reads {total : Nat} {s s' : InjectorState} (h : Solvent total s)
    (hr : RandomFile.Reads s.random s'.random) (hdied : s'.died = s.died)
    (hret : s'.retvalVec = s.retvalVec) (hdel : s'.delayDataVec = s.delayDataVec) :
    Solvent total s' := by
  have hleft := hr.left_le h.short
  have hretvals := h.retvals
  have hdelays := h.delays
  exact ⟨hdied.trans h.alive, hr.short h.short, by rw [hret]; omega, by rw [hdel]; omega⟩

/-- A return value is paid with two bytes. -/
theorem Solvent.takeRetval {total : Nat} {s s' : InjectorState} (h : Solvent total s)
    (hdied : s'.died = s.died) (hshort : s'.random.Short)
    (hcost : s'.random.left + 2 ≤ s.random.left)
    (hret : s'.retvalVec.length ≤ s.retvalVec.length + 1)
    (hdel : s'.delayDataVec = s.delayDataVec) : Solvent total s' := by
  have hretvals := h.retvals
  have hdelays := h.delays
  exact ⟨hdied.trans h.alive, hshort, by omega, by rw [hdel]; omega⟩

/-- A delay with four, or with what is left. -/
theorem Solvent.takeDelay {total : Nat} {s s' : InjectorState} (h : Solvent total s)
    (hdied : s'.died = s.died) (hshort : s'.random.Short) (hpos : 0 < s.random.left)
    (hcost : s'.random.left ≤ s.random.left - 4)
    (hdel : s'.delayDataVec.length = s.delayDataVec.length + 1)
    (hret : s'.retvalVec = s.retvalVec) : Solvent total s' := by
  have hretvals := h.retvals
  have hdelays := h.delays
  exact ⟨hdied.trans h.alive, hshort, by rw [hret]; omega, by omega⟩

/-- The fault byte and the choice of the event. An event other than a delay was picked by a
byte of the file. -/
theorem fault_cost {r : RandomFile} (hs : r.Short) (hbyte : 50 ≤ r.getRandomUint8.1)
    (isSend : Bool) (kind : FileKind) (net : Bool) (pastEvents : Option InjectEvent) :
    (chooseEvent isSend kind r.getRandomUint8.2 net).random.Short ∧ 0 < r.left ∧
      (chooseEvent isSend kind r.getRandomUint8.2 net).random.left ≤ r.left - 2 ∧
      ((chooseEvent isSend kind r.getRandomUint8.2 net).event pastEvents ≠ some .delay →
        2 ≤ r.left) := by
  have hshort : r.getRandomUint8.2.Short := RandomFile.readByte_short hs
  have hfault : r.getRandomUint8.2.left = r.left - 1 := RandomFile.readByte_left hs
  have hpick := chooseEvent_left hshort isSend kind net
  refine ⟨(chooseEvent_reads isSend kind _ net).short hshort, ?_, by omega, fun hev => ?_⟩
  · refine RandomFile.left_pos_of_readByte fun h0 => ?_
    rw [RandomFile.getRandomUint8, h0] at hbyte
    exact absurd hbyte (by decide)
  · by_contra hend
    exact hev (chooseEvent_atEnd (RandomFile.atEnd_of_left (by omega)) ..)

/-- A fault in an account that cannot pay for all the slots. -/
theorem solvent_injectFault {total : Nat} (htotal : total < 2 * (maxSlots + 1))
    {s : InjectorState} (h : Solvent total s) (hbyte : 50 ≤ s.random.getRandomUint8.1) (c : Call)
    (kind : FileKind) (isSend : Bool) (length : UInt64) (errorCodes : List Int64) :
    Solvent total (injectFault { s with random := s.random.getRandomUint8.2 } c kind isSend
      length errorCodes).injector := by
  obtain ⟨hch, hpos, hcost, hpaid⟩ :=
    fault_cost h.short hbyte isSend kind s.netPartition c.pastEvents
  have hretvals := h.retvals
  have hdelays := h.delays
  rw [injectFault]
  generalize chooseEvent isSend kind s.random.getRandomUint8.2 s.netPartition = ch
    at hch hcost hpaid ⊢
  dsimp only
  split
  · -- the tracer cannot die: there are bytes to pay for the slot that is missing
    next hnone =>
    rcases full_of_applyEvent hch hnone with ⟨-, hfull⟩ | ⟨hev, hfull⟩
    · replace hfull : maxSlots ≤ s.delayDataVec.length := hfull
      rw [maxSlots] at hfull htotal
      omega
    · replace hfull : maxSlots ≤ s.retvalVec.length := hfull
      have htwo := hpaid hev
      omega
  · next s' tcp hsome =>
    obtain ⟨-, -, hdied, hreads⟩ := applyEvent_frame hsome
    have hrest : s'.random.left ≤ ch.random.left := hreads.left_le hch
    rcases applyEvent_slots hch hsome with ⟨-, hret, hdel, hleft⟩ | ⟨hev, hret, hdel⟩
    · replace hleft : s'.random.left ≤ ch.random.left - 2 := hleft
      have hfour : s'.random.left ≤ s.random.left - 4 := by omega
      exact h.takeDelay hdied (hreads.short hch) hpos hfour hdel hret
    · have htwo : s'.random.left + 2 ≤ s.random.left := by
        have := hpaid hev
        omega
      exact h.takeRetval hdied (hreads.short hch) htwo hret hdel

/-- **One call** keeps the account. -/
theorem solvent_step {total : Nat} (htotal : total < 2 * (maxSlots + 1)) (env : InjectorEnv)
    {s : InjectorState} (h : Solvent total s) (c : Call) :
    Solvent total (stepInjector env s c) := by
  rw [stepInjector]
  rcases enter_cases env s c with heq | ⟨regs, -, -, -, heq⟩ |
    ⟨s', kind, isSend, source, hs', heq⟩ | ⟨kind, isSend, source, -, -, -, -, -, hbyte, heq⟩
  · rw [heq]
    exact h
  · rw [heq]
    exact h.reads (.refl _) rfl rfl rfl
  · rw [heq]
    rcases hs' with rfl | rfl
    · exact h.reads (.refl _) rfl rfl rfl
    · exact h.reads (RandomFile.reads_uint8 _) rfl rfl rfl
  · rw [heq]
    exact solvent_injectFault htotal h hbyte c kind isSend _ _

theorem solvent_init {file : List UInt8} (hlen : file.length < 2 ^ 32) (env : HashEnv)
    (shared : Shared) : Solvent file.length (.init file env shared) :=
  ⟨rfl, hlen, by
    show 2 * 0 + (file.length - 0) ≤ file.length
    omega, by
    show 0 + (file.length - 0 + 3) / 4 ≤ (file.length + 3) / 4
    omega⟩

/-- On a file too short for the slots the tracer survives every run. -/
theorem alive_of_short {file : List UInt8} (hlen : file.length < 2 * (maxSlots + 1))
    (env : InjectorEnv) (hashEnv : HashEnv) (shared : Shared) (calls : List Call) :
    (run (stepInjector env) (.init file hashEnv shared) calls).died = false := by
  have hshort : file.length < 2 ^ 32 := lt_trans hlen (by decide)
  exact (run_inv' (Solvent file.length) (fun _ c h => solvent_step hlen env h c)
    (solvent_init hshort hashEnv shared) calls).alive

/-! ### A file that pays for every slot -/

/-- Pairs of a fault byte and one that picks `LOST`. -/
def lossyFile (n : Nat) : List UInt8 := (List.range n).map fun i => if i % 2 = 0 then 200 else 2

theorem length_lossyFile (n : Nat) : (lossyFile n).length = n := by
  rw [lossyFile, List.length_map, List.length_range]

theorem readByte_lossyFile {n i : Nat} (hi : i < n) (hn : n < 2 ^ 32) :
    (RandomFile.mk (lossyFile n) (UInt32.ofNat i)).readByte
      = (if i % 2 = 0 then 200 else 2, ⟨lossyFile n, UInt32.ofNat (i + 1)⟩) := by
  have hindex : (UInt32.ofNat i).toNat = i := UInt32.toNat_ofNat_of_lt' (lt_trans hi hn)
  rw [RandomFile.readByte, hindex, lossyFile, List.getElem?_map, List.getElem?_range hi,
    Option.map_some, UInt32.ofNat_add]
  rfl

/-- An injector that has lost `k` messages and done nothing else: it has read two bytes for each,
and has a slot for each. -/
structure Lossy (n k : Nat) (s : InjectorState) : Prop where
  random : s.random = ⟨lossyFile n, UInt32.ofNat (2 * k)⟩
  alive : s.died = false
  notPending : s.storedRegs = none
  whole : s.netPartition = false
  slots : s.retvalVec.length = k

/-- The state in which the next send takes its slot: both bytes of the pair are read. -/
def lossyNext (n k : Nat) (s : InjectorState) : InjectorState :=
  { s with random := ⟨lossyFile n, UInt32.ofNat (2 * (k + 1))⟩, netPartition := false }

theorem lossy_step {n k : Nat} {s : InjectorState} (h : Lossy n k s) (hn : n < 2 ^ 32)
    (hk : 2 * k + 1 < n) :
    stepInjector ⟨false, none⟩ s socketSend
      = match injectRetval (lossyNext n k s) socketSend.tcp
          (callLength socketSend .arg).toInt64 with
        | none => { lossyNext n k s with died := true }
        | some (s', tcp) => (exitEvent s' tcp (callLength socketSend .arg)
            ⟨true, false, true, some 2, some .lost⟩).injector := by
  -- the file makes every call draw 200 and then 2: a fault, and a lost one
  have hfirst : s.random.getRandomUint8 = (200, ⟨lossyFile n, UInt32.ofNat (2 * k + 1)⟩) := by
    rw [h.random, RandomFile.getRandomUint8, readByte_lossyFile (by omega) hn,
      if_pos (by omega)]
  have hsecond : (RandomFile.mk (lossyFile n) (UInt32.ofNat (2 * k + 1))).getRandomUint8
      = (2, ⟨lossyFile n, UInt32.ofNat (2 * (k + 1))⟩) := by
    rw [RandomFile.getRandomUint8, readByte_lossyFile hk hn, if_neg (by omega)]
    rfl
  have hchoose : chooseEvent true ⟨false, false⟩ ⟨lossyFile n, UInt32.ofNat (2 * k + 1)⟩ false
      = ⟨some 2, ⟨lossyFile n, UInt32.ofNat (2 * (k + 1))⟩, false⟩ := by
    rw [chooseEvent, drawIndex, hsecond]
    rfl
  have hscreen : screen ⟨false, none⟩ socketSend = some ⟨false, false⟩ := by decide
  have hbyte : 50 ≤ s.random.getRandomUint8.1 := by
    rw [hfirst]
    show (50 : UInt8) ≤ 200
    decide
  have hsend : syscallKind socketSend.tcp.scno = some (true, .arg) := rfl
  rw [stepInjector, enter_of_drawn h.alive h.notPending hsend hscreen rfl hbyte, hfirst,
    injectFault, h.whole, hchoose]
  dsimp only [Choice.event]
  show Handled.injector (match injectRetval (lossyNext n k s) socketSend.tcp _ with
    | none => _
    | some (s'', tcp) => _) = _
  cases injectRetval (lossyNext n k s) socketSend.tcp (callLength socketSend .arg).toInt64 with
  | none => rfl
  | some p => rfl

/-- While there is a slot, the send is lost and nothing else changes. -/
theorem lossy_step_of_lt {n k : Nat} {s : InjectorState} (h : Lossy n k s) (hn : n < 2 ^ 32)
    (hk : 2 * k + 1 < n) (hslot : k < maxSlots) :
    Lossy n (k + 1) (stepInjector ⟨false, none⟩ s socketSend) := by
  rw [lossy_step h hn hk]
  rcases injectRetval_slots (lossyNext n k s) socketSend.tcp
    (callLength socketSend .arg).toInt64 with ⟨-, hfull⟩ | ⟨s', tcp, hsome, hlen, -⟩
  · have hfull : maxSlots ≤ s.retvalVec.length := hfull
    rw [h.slots] at hfull
    omega
  · obtain ⟨hnet, hregs, hdied, hrandom⟩ := injectRetval_frame hsome
    rw [hsome]
    exact ⟨hrandom, hdied.trans h.alive, hregs.trans h.notPending, hnet,
      hlen.trans (congrArg (· + 1) h.slots)⟩

/-- The one after that kills the tracer. -/
theorem died_of_lossy {n : Nat} {s : InjectorState} (h : Lossy n maxSlots s) (hn : n < 2 ^ 32)
    (hk : 2 * maxSlots + 1 < n) : (stepInjector ⟨false, none⟩ s socketSend).died = true := by
  have hnone : retvalNew (lossyNext n maxSlots s).retvalVec
      (callLength socketSend .arg).toInt64 = none := by
    have hlen : (lossyNext n maxSlots s).retvalVec.length = maxSlots := h.slots
    rw [retvalNew, hlen]
    exact if_pos (by decide)
  rw [lossy_step h hn hk, injectRetval, hnone]
  rfl

theorem lossy_init (n : Nat) (env : HashEnv) (shared : Shared) :
    Lossy n 0 (.init (lossyFile n) env shared) := ⟨rfl, rfl, rfl, rfl, rfl⟩

theorem lossy_run {n : Nat} (hn : n < 2 ^ 32) (env : HashEnv) (shared : Shared) {k : Nat}
    (hk : 2 * k ≤ n) (hslots : k ≤ maxSlots) :
    Lossy n k (run (stepInjector ⟨false, none⟩) (.init (lossyFile n) env shared)
      (List.replicate k socketSend)) := by
  induction k with
  | zero => exact lossy_init n env shared
  | succ k ih =>
    rw [List.replicate_succ', run_concat]
    exact lossy_step_of_lt (ih (by omega) (by omega)) hn (by omega) (by omega)

/-- 65537 lost messages. -/
theorem lossy_dies {n : Nat} (hn : n < 2 ^ 32) (hlen : 2 * (maxSlots + 1) ≤ n) (env : HashEnv)
    (shared : Shared) :
    (run (stepInjector ⟨false, none⟩) (.init (lossyFile n) env shared)
      (List.replicate (maxSlots + 1) socketSend)).died = true := by
  rw [List.replicate_succ', run_concat]
  exact died_of_lossy (lossy_run hn env shared (by omega) le_rfl) hn (by omega)

/-! ### The files of a node -/

open Harness

/-- A file that `split_files` writes for a node of `nodeCount`, from a test case of this
length. -/
def RandomNodeFile (length nodeCount : Nat) (file : List UInt8) : Prop :=
  ∃ (content : List UInt8) (files : Files) (i : Nat), content.length = length ∧ i < nodeCount ∧
    writePieces content nodeCount files (.randomNode i) = some file

theorem writeFiles_node {nodeCount i : Nat} (h : i < nodeCount) :
    (writeFiles nodeCount)[i + 1]? = some (.randomNode i) := by
  rw [writeFiles, List.getElem?_cons_succ, List.getElem?_map, List.getElem?_range h,
    Option.map_some]

/-- These are all the files with the length of a share. -/
theorem randomNodeFile_iff {length nodeCount : Nat} (hnodes : 1 ≤ nodeCount)
    {file : List UInt8} :
    RandomNodeFile length nodeCount file ↔ file.length = length / (nodeCount + 1) := by
  constructor
  · rintro ⟨content, files, i, rfl, hi, hfile⟩
    rw [writePieces_apply content nodeCount files (writeFiles_node hi)] at hfile
    obtain rfl := Option.some.inj hfile
    exact length_splitContent content hi
  · intro hfile
    -- the driver's share, then this one, then what is left
    have hroom : file.length + file.length ≤ length := by
      calc file.length + file.length = length / (nodeCount + 1) * 2 := by rw [hfile]; ring
        _ ≤ length / (nodeCount + 1) * (nodeCount + 1) := Nat.mul_le_mul_left _ (by omega)
        _ ≤ length := Nat.div_mul_le_self ..
    let content := List.replicate file.length 0 ++
      (file ++ List.replicate (length - (file.length + file.length)) 0)
    have hlen : content.length = length := by
      simp only [content, List.length_append, List.length_replicate]
      omega
    refine ⟨content, fun _ => none, 0, hlen, hnodes, ?_⟩
    rw [writePieces_apply content nodeCount _ (writeFiles_node hnodes), splitContent,
      averageLength_eq, hlen, ← hfile, Nat.mul_one]
    rw [List.drop_left' (by simp), List.take_left' rfl]

/-- **The arenas.** For test cases of a length, the tracer survives every file of a node and
every sequence of calls exactly if the share of a node is shorter than 131074 bytes. -/
theorem arenas_hold_iff (length nodeCount : Nat) (hlen : length < Fuzzer.maxFileLen.toNat)
    (hnodes : 1 ≤ nodeCount) :
    (∀ file, RandomNodeFile length nodeCount file →
      ∀ (env : InjectorEnv) (hashEnv : HashEnv) (shared : Shared) (calls : List Call),
        (run (stepInjector env) (.init file hashEnv shared) calls).died = false)
      ↔ length / (nodeCount + 1) < 2 * (maxSlots + 1) := by
  constructor
  · intro h
    by_contra hlong
    have hshort : length / (nodeCount + 1) < 2 ^ 32 :=
      lt_of_le_of_lt (Nat.div_le_self ..) (lt_trans hlen (by decide))
    -- a share of pairs that each lose a send fills the table before it ends
    have hfile : RandomNodeFile length nodeCount (lossyFile (length / (nodeCount + 1))) :=
      (randomNodeFile_iff hnodes).mpr (length_lossyFile _)
    have hdies := lossy_dies hshort (Nat.le_of_not_lt hlong) ⟨false, 0⟩ ⟨fun _ => 0, 0⟩
    exact absurd ((h _ hfile _ _ _ _).symm.trans hdies) (by decide)
  · intro hshare file hfile env hashEnv shared calls
    refine alive_of_short ?_ env hashEnv shared calls
    rw [(randomNodeFile_iff hnodes).mp hfile]
    exact hshare

/-- A test case of 4000 bytes for three nodes. -/
theorem arenas_hold_threeNodes :
    4000 < Fuzzer.maxFileLen.toNat ∧
      ∀ file, RandomNodeFile 4000 3 file →
        ∀ (env : InjectorEnv) (hashEnv : HashEnv) (shared : Shared) (calls : List Call),
          (run (stepInjector env) (.init file hashEnv shared) calls).died = false :=
  ⟨by decide, (arenas_hold_iff 4000 3 (by decide) (by decide)).mpr (by decide)⟩

/-- A quarter of a mebibyte and four bytes for one node: it dies over its 65537th lost
message. -/
theorem arena_overflows :
    262148 < Fuzzer.maxFileLen.toNat ∧
      ∃ file, RandomNodeFile 262148 1 file ∧
        (run (stepInjector ⟨false, none⟩) (.init file ⟨false, 0⟩ ⟨fun _ => 0, 0⟩)
          (List.replicate (maxSlots + 1) socketSend)).died = true := by
  refine ⟨by decide, lossyFile 131074, (randomNodeFile_iff le_rfl).mpr (length_lossyFile _), ?_⟩
  exact lossy_dies (by decide) (by decide) _ _

end Injector

end DistFuzz
