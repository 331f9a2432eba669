import DistFuzz.Bpf.Merge
import DistFuzz.Lib.PrefixCode
import Mathlib.Data.Nat.Bits

/-!
# The schedule of the BPF injector (bpf/dst_fuzz_fault.bpf.c:327–357)

A transfer on a noted descriptor takes one bit of `fuzz_bytes`, and a second one if the
first is set. So the array is a message in the code `0` for no fault, `10` for a delay
and `11` for an error, read bit by bit from the least significant bit of each byte on
and followed by zeros.

- `scheduleBit`: the bits; `getBit_eq`: `get_bit` reads them.
- `injectionCode`: the code.
- `decisions`: what `handle_events` decides on noted descriptors in a run of any probes.
- `handleEvents_reads`: one call reads one word; `scheduled_run`: a run reads a message.
- `packBits`: the array for a message.
-/

namespace DistFuzz.Bpf

open DistFuzz.Lib

/-! ### The bits of the array -/

/-- Bit `i` of the array, the least significant one of each byte first; zero behind the
end. -/
def scheduleBit (fuzzBytes : Memory) (i : Nat) : Bool :=
  if i / 8 < fuzzBytesSize then (fuzzBytes (i / 8)).toNat.testBit (i % 8) else false

theorem shiftRight_and_one_ne_zero_iff (x : UInt8) {k : Nat} (hk : k < 8) :
    (x >>> UInt8.ofNat k) &&& 1 ≠ 0 ↔ x.toNat.testBit k = true := by
  have hshift : ((x >>> UInt8.ofNat k) &&& 1).toNat = (x.toNat >>> k) &&& 1 := by
    rw [UInt8.toNat_and, UInt8.toNat_shiftRight]
    have hmod : (UInt8.ofNat k).toNat % 8 = k := by
      rw [UInt8.toNat_ofNat_of_lt' (by show k < 256; omega)]
      omega
    rw [hmod]
    rfl
  rw [Ne, ← UInt8.toNat_inj, hshift, Nat.testBit, bne_iff_ne, Nat.land_comm]
  rfl

/-- `get_bit` reads the schedule, as far as a 32-bit index goes. -/
theorem getBit_eq (fuzzBytes : Memory) {i : Nat} (hi : i < 2 ^ 32) :
    getBit fuzzBytes fuzzBytesSize (UInt32.ofNat i) = scheduleBit fuzzBytes i := by
  have hindex : (UInt32.ofNat i).toNat = i := UInt32.toNat_ofNat_of_lt' hi
  rw [getBit, scheduleBit, hindex]
  split
  · rw [Bool.eq_iff_iff, decide_eq_true_iff]
    exact shiftRight_and_one_ne_zero_iff _ (Nat.mod_lt _ (by omega))
  · rfl

/-! ### Decisions -/

/-- `0` is no fault, `10` a delay, `11` an error. -/
def injectionCode : PrefixCode Injection where
  word
    | .none => [false]
    | .delay => [true, false]
    | .fault => [true, true]
  prefixFree a b h := by
    cases a <;> cases b <;> simp_all

/-- What `handle_events` decides at this probe, if it is a transfer of the traced
process on a noted descriptor. -/
def decision (cfg : Config) (b : Bss) (e : Task × Merge.Probe) : Option Injection :=
  match e.2 with
  | .sysTransfer call length fd =>
    if isCurrentPidOrTgid cfg.pid e.1 ∧ recorded b fd
    then some (sysTransfer cfg b e.1 call length fd).1 else none
  | _ => none

/-- The maps after a probe. -/
def fire (cfg : Config) (b : Bss) (e : Task × Merge.Probe) : Bss := e.2.fire cfg b e.1

/-- The decisions of a run of probes. -/
def decisions (cfg : Config) (b : Bss) (events : List (Task × Merge.Probe)) : List Injection :=
  (outputs (fire cfg) (decision cfg) b events).reduceOption

/-- The three ends of a call on a noted descriptor, with the bits it takes. -/
theorem handleEvents_cases {cfg : Config} {b : Bss} {fd : UInt32} (hrec : recorded b fd = true)
    (isSend : Bool) (length : Int32) :
    (getBit cfg.fuzzBytes fuzzBytesSize b.fuzzBitIndex = false ∧
      (handleEvents cfg b isSend length fd).1 = .none ∧
      (handleEvents cfg b isSend length fd).2.fuzzBitIndex = b.fuzzBitIndex + 1) ∨
    (getBit cfg.fuzzBytes fuzzBytesSize b.fuzzBitIndex = true ∧
      (handleEvents cfg b isSend length fd).1
        = (if getBit cfg.fuzzBytes fuzzBytesSize (b.fuzzBitIndex + 1) then .fault else .delay) ∧
      (handleEvents cfg b isSend length fd).2.fuzzBitIndex = b.fuzzBitIndex + 1 + 1) := by
  unfold handleEvents nextBit
  by_cases hfirst : getBit cfg.fuzzBytes fuzzBytesSize b.fuzzBitIndex = true
  · exact .inr ⟨hfirst, by simp [hrec, hfirst], by simp [hrec, hfirst]⟩
  · rw [Bool.not_eq_true] at hfirst
    exact .inl ⟨hfirst, by simp [hrec, hfirst], by simp [hrec, hfirst]⟩

/-- The call at position `pos` of the schedule reads the word of its decision. -/
structure ReadsWord (cfg : Config) (pos : Nat) (inj : Injection) (b' : Bss) : Prop where
  index : b'.fuzzBitIndex = UInt32.ofNat (pos + (injectionCode.word inj).length)
  word : pos + (injectionCode.word inj).length ≤ 2 ^ 32 →
    Begins (scheduleBit cfg.fuzzBytes) pos (injectionCode.word inj)

theorem ofNat_succ (pos : Nat) : UInt32.ofNat pos + 1 = UInt32.ofNat (pos + 1) :=
  (UInt32.ofNat_add pos 1).symm

theorem handleEvents_reads {cfg : Config} {b : Bss} {fd : UInt32} (hrec : recorded b fd = true)
    {pos : Nat} (hpos : b.fuzzBitIndex = UInt32.ofNat pos) (isSend : Bool) (length : Int32) :
    ReadsWord cfg pos (handleEvents cfg b isSend length fd).1
      (handleEvents cfg b isSend length fd).2 := by
  have hbit : ∀ bit, getBit cfg.fuzzBytes fuzzBytesSize b.fuzzBitIndex = bit → pos + 1 ≤ 2 ^ 32 →
      Begins (scheduleBit cfg.fuzzBytes) pos [bit] := by
    intro bit hbit hle
    refine begins_singleton ?_
    rw [← getBit_eq cfg.fuzzBytes hle, ← hpos]
    exact hbit
  rcases handleEvents_cases hrec isSend length with ⟨hfirst, hinj, hindex⟩ | ⟨hfirst, hinj, hindex⟩
  · rw [hinj]
    refine ⟨?_, hbit false hfirst⟩
    rw [hindex, hpos]
    exact ofNat_succ pos
  · -- the second bit tells the delay from the error
    have hsecond : ∀ bit, getBit cfg.fuzzBytes fuzzBytesSize (b.fuzzBitIndex + 1) = bit →
        pos + 2 ≤ 2 ^ 32 → Begins (scheduleBit cfg.fuzzBytes) pos [true, bit] := by
      intro bit hbit' hle
      refine (begins_append (w := [true])).mpr ⟨hbit true hfirst (by omega), ?_⟩
      refine begins_singleton ?_
      rw [hpos, ofNat_succ, getBit_eq cfg.fuzzBytes (show pos + 1 < 2 ^ 32 by omega)] at hbit'
      exact hbit'
    have hindex' : b.fuzzBitIndex + 1 + 1 = UInt32.ofNat (pos + 2) := by
      rw [hpos, ofNat_succ, ofNat_succ]
    rw [hinj]
    cases hbit' : getBit cfg.fuzzBytes fuzzBytesSize (b.fuzzBitIndex + 1) with
    | false => exact ⟨hindex.trans hindex', hsecond false hbit'⟩
    | true => exact ⟨hindex.trans hindex', hsecond true hbit'⟩

/-! ### Runs -/

/-- The probes of `open` and `socket` take no bits, nor do transfers elsewhere. -/
theorem fire_of_no_decision {cfg : Config} {b : Bss} {e : Task × Merge.Probe}
    (h : decision cfg b e = none) : (fire cfg b e).fuzzBitIndex = b.fuzzBitIndex := by
  obtain ⟨task, p⟩ := e
  cases p with
  | sysOpen fname =>
    show (sysOpen cfg b task fname).fuzzBitIndex = _
    unfold sysOpen filterByFilename
    split_ifs <;> rfl
  | sysOpenExit ret =>
    show (sysOpenExit cfg b task ret).fuzzBitIndex = _
    unfold sysOpenExit recordFd
    dsimp only
    split_ifs <;> rfl
  | sysSocketExit ret =>
    show (sysSocketExit cfg b task ret).fuzzBitIndex = _
    unfold sysSocketExit
    split_ifs <;> rfl
  | sysTransfer call length fd =>
    show (sysTransfer cfg b task call length fd).2.fuzzBitIndex = _
    unfold decision at h
    dsimp only at h
    split_ifs at h with hno
    unfold sysTransfer
    split_ifs with htask
    · have hrec : ¬recorded b fd = true := fun hrec => hno ⟨htask, hrec⟩
      rw [handleEvents, if_neg hrec, recordCoverage_fuzzBitIndex]
    · rfl

/-- A probe that decides reads a word. -/
theorem fire_of_decision {cfg : Config} {b : Bss} {e : Task × Merge.Probe} {inj : Injection}
    (h : decision cfg b e = some inj) {pos : Nat} (hpos : b.fuzzBitIndex = UInt32.ofNat pos) :
    ReadsWord cfg pos inj (fire cfg b e) := by
  obtain ⟨task, p⟩ := e
  cases p with
  | sysTransfer call length fd =>
    unfold decision at h
    dsimp only at h
    split_ifs at h with hyes
    obtain rfl := Option.some.inj h
    show ReadsWord cfg pos _ (sysTransfer cfg b task call length fd).2
    rw [sysTransfer, if_pos hyes.1]
    exact handleEvents_reads hyes.2 hpos call.isSend length
  | _ => cases h

/-- What a run keeps: the index is behind the words read so far, which are in the
schedule unless the index has wrapped. -/
structure Scheduled (cfg : Config) (history : List (Option Injection)) (b : Bss) : Prop where
  index : b.fuzzBitIndex = UInt32.ofNat (injectionCode.encode history.reduceOption).length
  message : (injectionCode.encode history.reduceOption).length ≤ 2 ^ 32 →
    Begins (scheduleBit cfg.fuzzBytes) 0 (injectionCode.encode history.reduceOption)

theorem scheduled_step {cfg : Config} {history : List (Option Injection)} {b : Bss}
    (h : Scheduled cfg history b) (e : Task × Merge.Probe) :
    Scheduled cfg (history ++ [decision cfg b e]) (fire cfg b e) := by
  cases hdec : decision cfg b e with
  | none =>
    refine ⟨?_, ?_⟩
    · rw [fire_of_no_decision hdec, reduceOption_concat_none]
      exact h.index
    · rw [reduceOption_concat_none]
      exact h.message
  | some inj =>
    obtain ⟨hindex, hword⟩ := fire_of_decision hdec h.index
    refine ⟨?_, ?_⟩
    · rw [hindex, reduceOption_concat_some, encode_concat, List.length_append]
    · rw [reduceOption_concat_some, encode_concat, List.length_append]
      intro hle
      rw [begins_append, Nat.zero_add]
      exact ⟨h.message (by omega), hword hle⟩

theorem scheduled_run {cfg : Config} {b : Bss} (hb : b.fuzzBitIndex = 0)
    (events : List (Task × Merge.Probe)) :
    Scheduled cfg (outputs (fire cfg) (decision cfg) b events) (run (fire cfg) b events) := by
  have hstart : Scheduled cfg [] b := ⟨hb, fun _ => begins_nil _ _⟩
  have h := outputs_inv (Scheduled cfg) (fun _ _ e h => scheduled_step h e) hstart events
  rwa [List.nil_append] at h

/-! ### An array for every message -/

/-- The array with these bits. -/
def packBits (bits : Nat → Bool) : Memory :=
  fun k => UInt8.ofNat (Nat.ofBits fun j : Fin 8 => bits (8 * k + j))

theorem scheduleBit_packBits (bits : Nat → Bool) {i : Nat} (hi : i < 8 * fuzzBytesSize) :
    scheduleBit (packBits bits) i = bits i := by
  have hlt : Nat.ofBits (fun j : Fin 8 => bits (8 * (i / 8) + j)) < 2 ^ 8 := Nat.ofBits_lt_two_pow _
  rw [scheduleBit, if_pos (by omega), packBits, UInt8.toNat_ofNat_of_lt' hlt,
    Nat.testBit_ofBits_lt _ _ (Nat.mod_lt _ (by omega))]
  exact congrArg bits (Nat.div_add_mod i 8)

theorem begins_packBits {message : List Injection}
    (h : (injectionCode.encode message).length ≤ 8 * fuzzBytesSize) :
    Begins (scheduleBit (packBits (pad (injectionCode.encode message)))) 0
      (injectionCode.encode message) := by
  intro i bit hbit
  have hi := (List.getElem?_eq_some_iff.mp hbit).1
  rw [Nat.zero_add, scheduleBit_packBits _ (by omega)]
  have hpad := begins_pad (injectionCode.encode message) i bit hbit
  rwa [Nat.zero_add] at hpad

/-- The traced process makes a socket and writes to it `n` times. -/
def busy (pid : UInt32) (n : Nat) : List (Task × Merge.Probe) :=
  (⟨none, pid, pid⟩, .sysSocketExit 3) ::
    List.replicate n (⟨none, pid, pid⟩, .sysTransfer .write 0 3)

theorem length_decisions_writes {cfg : Config} {b : Bss} (hrec : recorded b 3 = true) (n : Nat) :
    (decisions cfg b (List.replicate n (⟨none, cfg.pid, cfg.pid⟩, .sysTransfer .write 0 3))).length
      = n := by
  induction n generalizing b with
  | zero => rfl
  | succ n ih =>
    have htask : isCurrentPidOrTgid cfg.pid ⟨none, cfg.pid, cfg.pid⟩ = true := by
      simp [isCurrentPidOrTgid]
    have hkeep : recorded (fire cfg b (⟨none, cfg.pid, cfg.pid⟩, .sysTransfer .write 0 3)) 3
        = true := by
      show recorded (sysTransfer cfg b ⟨none, cfg.pid, cfg.pid⟩ .write 0 3).2 3 = true
      rw [sysTransfer, if_pos htask, recorded, (handleEvents_keeps cfg b _ _ _).1]
      exact hrec
    have hrest := ih hkeep
    rw [decisions] at hrest ⊢
    rw [List.replicate_succ, outputs, decision]
    dsimp only
    rw [if_pos ⟨htask, hrec⟩, List.reduceOption_cons_of_some, List.length_cons, hrest]

theorem length_decisions_busy (cfg : Config) (b : Bss) (n : Nat) :
    (decisions cfg b (busy cfg.pid n)).length = n := by
  have htask : isCurrentPidOrTgid cfg.pid ⟨none, cfg.pid, cfg.pid⟩ = true := by
    simp [isCurrentPidOrTgid]
  have hrec : recorded (fire cfg b (⟨none, cfg.pid, cfg.pid⟩, .sysSocketExit 3)) 3 = true := by
    show recorded (sysSocketExit cfg b ⟨none, cfg.pid, cfg.pid⟩ 3) 3 = true
    have hslot : fdSlot 3 = ⟨(3 : UInt32).toNat, by decide⟩ := by decide
    rw [sysSocketExit, if_pos htask, recorded, dif_pos (by decide), hslot]
    simp
  exact length_decisions_writes hrec n

/-- A word has one or two bits. -/
theorem length_encode (message : List Injection) :
    message.length ≤ (injectionCode.encode message).length ∧
      (injectionCode.encode message).length ≤ 2 * message.length := by
  induction message with
  | nil => exact ⟨Nat.le_refl _, Nat.le_refl _⟩
  | cons inj message ih =>
    have hword : 1 ≤ (injectionCode.word inj).length ∧ (injectionCode.word inj).length ≤ 2 := by
      cases inj <;> decide
    rw [encode_cons, List.length_append, List.length_cons]
    omega

/-- A message that fits the array is what a run with as many decisions takes from it. -/
theorem decisions_eq (cfg : Config) {b : Bss} (hb : b.fuzzBitIndex = 0) {message : List Injection}
    (hfit : (injectionCode.encode message).length ≤ 8 * fuzzBytesSize)
    (h : Begins (scheduleBit cfg.fuzzBytes) 0 (injectionCode.encode message))
    (events : List (Task × Merge.Probe))
    (hlength : (decisions cfg b events).length = message.length) :
    decisions cfg b events = message := by
  -- two bits for each of at most `2 ^ 23` decisions: the index does not wrap
  have hle : (injectionCode.encode (decisions cfg b events)).length ≤ 2 ^ 32 := by
    have hbits := (length_encode (decisions cfg b events)).2
    have hmessage := (length_encode message).1
    have hsize : 8 * fuzzBytesSize = 2 ^ 23 := rfl
    omega
  exact ((scheduled_run hb events).message hle).unique h hlength

/-- **The fault schedule.** Whatever probes run, the decisions on noted descriptors are
the message that stands at the beginning of the array's bits, as long as the index has
not wrapped; and it is the only one of its length. Conversely, for every message that
fits the array there is an array from which every run with as many decisions takes that
message, and there is such a run. -/
theorem fault_schedule :
    (∀ (cfg : Config) (b : Bss) (events : List (Task × Merge.Probe)), b.fuzzBitIndex = 0 →
      (injectionCode.encode (decisions cfg b events)).length ≤ 2 ^ 32 →
        Begins (scheduleBit cfg.fuzzBytes) 0 (injectionCode.encode (decisions cfg b events)) ∧
        ∀ message : List Injection, message.length = (decisions cfg b events).length →
          Begins (scheduleBit cfg.fuzzBytes) 0 (injectionCode.encode message) →
            message = decisions cfg b events) ∧
    (∀ message : List Injection, (injectionCode.encode message).length ≤ 8 * fuzzBytesSize →
      ∃ fuzzBytes : Memory, ∀ (pid nodeId : UInt32) (b : Bss), b.fuzzBitIndex = 0 →
        (∀ events, (decisions ⟨pid, fuzzBytes, nodeId⟩ b events).length = message.length →
          decisions ⟨pid, fuzzBytes, nodeId⟩ b events = message) ∧
        ∃ events, decisions ⟨pid, fuzzBytes, nodeId⟩ b events = message) := by
  refine ⟨fun cfg b events hb hle => ?_, fun message hfit => ?_⟩
  · have hbegins := (scheduled_run hb events).message hle
    exact ⟨hbegins, fun message hlength h => h.unique hbegins hlength⟩
  · refine ⟨packBits (pad (injectionCode.encode message)), fun pid nodeId b hb => ?_⟩
    have hall := decisions_eq ⟨pid, packBits (pad (injectionCode.encode message)), nodeId⟩ hb hfit
      (begins_packBits hfit)
    exact ⟨hall, busy pid message.length, hall _ (length_decisions_busy _ b _)⟩

end DistFuzz.Bpf
