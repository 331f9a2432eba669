import DistFuzz.Injector.Event
import Mathlib.Algebra.BigOperators.Intervals
import Mathlib.Algebra.Order.BigOperators.Group.Finset
import Mathlib.Data.Nat.ModEq

/-!
# Lengths of scatter/gather calls, and the loss that returns them
(strace/src/dst_fuzz.c:367–374, 414–472, 510–556)

The injector computes one length for each call. It enters the coverage hash, and
for `LOST` it is what the application gets back. It should be what the kernel
returns when everything was sent: the sizes of all buffers, and for `sendmmsg` the
number of messages.

`get_length_from_iovec` adds `sizeof(struct iovec) * i` to an integer. The other
two add it to a `struct iovec *` and so step over sixteen entries at a time;
`get_length_from_mmsg` moreover takes the number of the message for the number of
the entry. A word that `umove` cannot read is whatever the local variable holds,
which is one of the memories the theorems range over.

- `iovTotal`, `msgTotal`, `mmsgTotal`: the sizes of the buffers, as numbers.
- `strideTotal`, `mmsgStrideTotal`: what is added up instead (`getLengthFromMsg_toNat`,
  `getLengthFromMmsg_toNat`).
- `message_length_iff`, `multi_message_length_iff`: when the two agree, in one
  memory and in all.
- `forgedRetval`, `fullSuccess`: what the application gets and what it should get;
  `lost_retval_iff`.
-/

namespace DistFuzz.Injector

open Finset

/-! ## Sums of lengths -/

/-- The address of `iov[i]`. -/
def iovAt (iov : UInt64) (i : Nat) : UInt64 := iov + sizeofIovec * UInt64.ofNat i

/-- The address of `msgvec[i]`. -/
def mmsgAt (msgvec : UInt64) (i : Nat) : UInt64 := msgvec + sizeofMmsghdr * UInt64.ofNat i

/-- The number of bytes of the buffers `iov[0..iovcnt)`. -/
def iovTotal (mem : TraceeMemory) (iov iovcnt : UInt64) : Nat :=
  ∑ i ∈ range iovcnt.toNat, (iovLen mem (iovAt iov i)).toNat

/-- The number of bytes of a message. -/
def msgTotal (mem : TraceeMemory) (msg : UInt64) : Nat :=
  iovTotal mem (msgIov mem msg) (msgIovlen mem msg)

/-- The number of bytes of the messages `msgvec[0..vlen)`. -/
def mmsgTotal (mem : TraceeMemory) (msgvec vlen : UInt64) : Nat :=
  ∑ i ∈ range vlen.toNat, msgTotal mem (mmsgAt msgvec i)

/-- The lengths `get_length_from_msg` adds up: those of every sixteenth entry. -/
def strideTotal (mem : TraceeMemory) (msg : UInt64) : Nat :=
  ∑ i ∈ range (msgIovlen mem msg).toNat, (iovLen mem (iovAt (msgIov mem msg) (16 * i))).toNat

/-- The lengths `get_length_from_mmsg` adds up: for each buffer of message `i`
that of the same entry, the one at `16 * i`. -/
def mmsgStrideTotal (mem : TraceeMemory) (msgvec vlen : UInt64) : Nat :=
  ∑ i ∈ range vlen.toNat, ∑ _j ∈ range (msgIovlen mem (mmsgAt msgvec i)).toNat,
    (iovLen mem (iovAt (msgIov mem (mmsgAt msgvec i)) (16 * i))).toNat

/-- A loop whose turn `i` adds `w i` to a 64-bit counter. -/
theorem toNat_foldl_add (w : Nat → Nat) {step : UInt64 → Nat → UInt64}
    (hstep : ∀ acc i, (step acc i).toNat = (acc.toNat + w i) % 2 ^ 64) (n : Nat) (acc : UInt64) :
    ((List.range n).foldl step acc).toNat = (acc.toNat + ∑ i ∈ range n, w i) % 2 ^ 64 := by
  induction n with
  | zero =>
    rw [sum_range_zero, Nat.add_zero]
    exact (Nat.mod_eq_of_lt acc.toNat_lt).symm
  | succ n ih =>
    rw [List.range_succ, List.foldl_append, List.foldl_cons, List.foldl_nil, hstep, ih,
      sum_range_succ, Nat.mod_add_mod, Nat.add_assoc]

theorem getLengthFromIovec_toNat (mem : TraceeMemory) (tcp : Tcb) (iovPos iovcntPos : Fin 6) :
    (getLengthFromIovec mem tcp iovPos iovcntPos).toNat
      = iovTotal mem (tcp.uArg iovPos) (tcp.uArg iovcntPos) % 2 ^ 64 := by
  unfold getLengthFromIovec
  refine (toNat_foldl_add (fun i => (iovLen mem (iovAt (tcp.uArg iovPos) i)).toNat)
    (fun acc i => UInt64.toNat_add _ _) _ _).trans ?_
  rw [UInt64.toNat_zero, Nat.zero_add]
  rfl

/-- Scaling the offset twice reaches the entry with sixteen times the number. -/
theorem iovAt_sixteen (iov : UInt64) (i : Nat) :
    iov + sizeofIovec * (sizeofIovec * UInt64.ofNat i) = iovAt iov (16 * i) := by
  rw [iovAt, UInt64.ofNat_mul]
  rfl

theorem getLengthFromMsg_toNat (mem : TraceeMemory) (tcp : Tcb) (msgPos : Fin 6) :
    (getLengthFromMsg mem tcp msgPos).toNat = strideTotal mem (tcp.uArg msgPos) % 2 ^ 64 := by
  unfold getLengthFromMsg
  simp only [iovAt_sixteen]
  refine (toNat_foldl_add
    (fun i => (iovLen mem (iovAt (msgIov mem (tcp.uArg msgPos)) (16 * i))).toNat)
    (fun acc i => UInt64.toNat_add _ _) _ _).trans ?_
  rw [UInt64.toNat_zero, Nat.zero_add]
  rfl

theorem getLengthFromMmsg_toNat (mem : TraceeMemory) (tcp : Tcb) (msgvecPos vlenPos : Fin 6) :
    (getLengthFromMmsg mem tcp msgvecPos vlenPos).toNat
      = mmsgStrideTotal mem (tcp.uArg msgvecPos) (tcp.uArg vlenPos) % 2 ^ 64 := by
  unfold getLengthFromMmsg
  simp only [iovAt_sixteen]
  -- the inner loop is a turn of the outer one
  refine (toNat_foldl_add _ (fun acc i => toNat_foldl_add (fun _ => (iovLen mem
    (iovAt (msgIov mem (mmsgAt (tcp.uArg msgvecPos) i)) (16 * i))).toNat)
    (fun acc _ => UInt64.toNat_add _ _) _ acc) _ _).trans ?_
  rw [UInt64.toNat_zero, Nat.zero_add]
  rfl

/-! ## Memories that tell the entries apart

To see which counts of buffers are read right in every memory, one entry of one
message gets length `1` and all other lengths are zero. The arrays lie between the
words of the headers, at offsets that are no multiples of eight. -/

/-- The headers `vec[i]` with `counts i` buffers each. Entry `k` of the array of
message `bad` has length `1`. -/
def probeMemory (vec : UInt64) (counts : Nat → UInt64) (bad k : Nat) : TraceeMemory := fun a =>
  let d := (a - vec).toNat
  if d = 68 + 16 * k then 1
  else if d % 64 = 16 then (if d / 64 = bad then vec + 60 else vec + 62)
  else if d % 64 = 24 then counts (d / 64)
  else 0

section Probe

variable {vec : UInt64} {counts : Nat → UInt64} {bad k : Nat}

theorem offset_header {i : Nat} (hi : i < 2 ^ 32) {w : UInt64} (hw : w.toNat < 64) :
    (mmsgAt vec i + w - vec).toNat = 64 * i + w.toNat := by
  have hvec := vec.toNat_lt
  have hsize : sizeofMmsghdr.toNat = 64 := rfl
  rw [mmsgAt, UInt64.toNat_sub, UInt64.toNat_add, UInt64.toNat_add, UInt64.toNat_mul,
    UInt64.toNat_ofNat', hsize]
  omega

theorem offset_entry (off : UInt64) (j : Nat) :
    (iovAt (vec + off) j + 8 - vec).toNat = (off.toNat + 8 + 16 * j) % 2 ^ 64 := by
  have hvec := vec.toNat_lt
  have hsize : sizeofIovec.toNat = 16 := rfl
  have height : (8 : UInt64).toNat = 8 := rfl
  rw [iovAt, UInt64.toNat_sub, UInt64.toNat_add, UInt64.toNat_add, UInt64.toNat_add,
    UInt64.toNat_mul, UInt64.toNat_ofNat', hsize, height]
  omega

theorem probe_msgIov {i : Nat} (hi : i < 2 ^ 32) :
    msgIov (probeMemory vec counts bad k) (mmsgAt vec i)
      = if i = bad then vec + 60 else vec + 62 := by
  have hoff : (mmsgAt vec i + 16 - vec).toNat = 64 * i + 16 := offset_header hi (by decide)
  rw [msgIov, probeMemory, hoff]
  rw [if_neg (by omega), if_pos (by omega), show (64 * i + 16) / 64 = i by omega]

theorem probe_msgIovlen {i : Nat} (hi : i < 2 ^ 32) :
    msgIovlen (probeMemory vec counts bad k) (mmsgAt vec i) = counts i := by
  have hoff : (mmsgAt vec i + 24 - vec).toNat = 64 * i + 24 := offset_header hi (by decide)
  rw [msgIovlen, probeMemory, hoff]
  rw [if_neg (by omega), if_neg (by omega), if_pos (by omega),
    show (64 * i + 24) / 64 = i by omega]

/-- The array of message `bad`. -/
theorem probe_iovLen (hk : k ≤ 1) (j : Nat) :
    (iovLen (probeMemory vec counts bad k) (iovAt (vec + 60) j)).toNat
      = if j % 2 ^ 60 = k then 1 else 0 := by
  have hoff : (iovAt (vec + 60) j + 8 - vec).toNat = (68 + 16 * j) % 2 ^ 64 := offset_entry 60 j
  rw [iovLen, probeMemory, hoff]
  by_cases hj : j % 2 ^ 60 = k
  · rw [if_pos hj, if_pos (by omega)]
    rfl
  · rw [if_neg hj, if_neg (by omega), if_neg (by omega), if_neg (by omega)]
    rfl

/-- The arrays of the other messages. -/
theorem probe_iovLen_other (j : Nat) :
    (iovLen (probeMemory vec counts bad k) (iovAt (vec + 62) j)).toNat = 0 := by
  have hoff : (iovAt (vec + 62) j + 8 - vec).toNat = (70 + 16 * j) % 2 ^ 64 := offset_entry 62 j
  rw [iovLen, probeMemory, hoff]
  rw [if_neg (by omega), if_neg (by omega), if_neg (by omega)]
  rfl

/-- The marked entry is counted, and not so often that the sum wraps. -/
theorem probe_iovTotal (hk : k ≤ 1) {n : UInt64} (hkn : k < n.toNat) :
    iovTotal (probeMemory vec counts bad k) (vec + 60) n % 2 ^ 64 ≠ 0 := by
  have hone : 1 ≤ iovTotal (probeMemory vec counts bad k) (vec + 60) n := by
    refine le_trans ?_ (single_le_sum (fun _ _ => Nat.zero_le _) (mem_range.mpr hkn))
    rw [probe_iovLen hk, if_pos (Nat.mod_eq_of_lt (by omega))]
  have hle : iovTotal (probeMemory vec counts bad k) (vec + 60) n ≤ n.toNat := by
    calc iovTotal (probeMemory vec counts bad k) (vec + 60) n
        ≤ ∑ _i ∈ range n.toNat, 1 := by
          refine sum_le_sum fun i _ => ?_
          rw [probe_iovLen hk]
          split <;> omega
      _ = n.toNat := by simp
  rw [Nat.mod_eq_of_lt (hle.trans_lt n.toNat_lt)]
  omega

end Probe

/-! ## One message -/

/-- `get_length_from_msg` returns the number of bytes of the message, which is what
`get_length_from_iovec` returns for a `writev` of the same array. -/
def MsgLengthRight (mem : TraceeMemory) (tcp : Tcb) (msgPos : Fin 6) : Prop :=
  (getLengthFromMsg mem tcp msgPos).toNat = msgTotal mem (tcp.uArg msgPos) % 2 ^ 64 ∧
    ∀ (tcp' : Tcb) (iovPos iovcntPos : Fin 6),
      tcp'.uArg iovPos = msgIov mem (tcp.uArg msgPos) →
      tcp'.uArg iovcntPos = msgIovlen mem (tcp.uArg msgPos) →
      getLengthFromMsg mem tcp msgPos = getLengthFromIovec mem tcp' iovPos iovcntPos

theorem msgLengthRight_iff (mem : TraceeMemory) (tcp : Tcb) (msgPos : Fin 6) :
    MsgLengthRight mem tcp msgPos ↔
      strideTotal mem (tcp.uArg msgPos) ≡ msgTotal mem (tcp.uArg msgPos) [MOD 2 ^ 64] := by
  unfold MsgLengthRight
  rw [getLengthFromMsg_toNat]
  refine ⟨fun h => h.1, fun h => ⟨h, fun tcp' iovPos iovcntPos hiov hcnt => ?_⟩⟩
  refine UInt64.toNat_inj.mp ?_
  rw [getLengthFromMsg_toNat, getLengthFromIovec_toNat, hiov, hcnt]
  exact h

/-- The first entry is the only one at the right place. -/
theorem strideTotal_of_le_one {mem : TraceeMemory} {msg : UInt64}
    (h : (msgIovlen mem msg).toNat ≤ 1) : strideTotal mem msg = msgTotal mem msg := by
  refine sum_congr rfl fun i hi => ?_
  have hzero : i = 0 := by
    have := mem_range.mp hi
    omega
  rw [hzero, Nat.mul_zero]

/-- With two buffers or more, the length of the second is not read. -/
theorem strideTotal_probe (msg : UInt64) {n : UInt64} (hn : 2 ≤ n.toNat) :
    msgIovlen (probeMemory msg (fun _ => n) 0 1) msg = n ∧
      ¬strideTotal (probeMemory msg (fun _ => n) 0 1) msg
        ≡ msgTotal (probeMemory msg (fun _ => n) 0 1) msg [MOD 2 ^ 64] := by
  have hat : mmsgAt msg 0 = msg := by
    rw [mmsgAt]
    exact UInt64.add_zero msg
  have hiov : msgIov (probeMemory msg (fun _ => n) 0 1) msg = msg + 60 := by
    have h : msgIov (probeMemory msg (fun _ => n) 0 1) (mmsgAt msg 0) = _ :=
      probe_msgIov (by decide)
    rwa [hat, if_pos rfl] at h
  have hlen : msgIovlen (probeMemory msg (fun _ => n) 0 1) msg = n := by
    have h : msgIovlen (probeMemory msg (fun _ => n) 0 1) (mmsgAt msg 0) = _ :=
      probe_msgIovlen (by decide)
    rwa [hat] at h
  refine ⟨hlen, fun hmod => ?_⟩
  have hzero : strideTotal (probeMemory msg (fun _ => n) 0 1) msg = 0 := by
    rw [strideTotal, hiov]
    refine sum_eq_zero fun i _ => ?_
    rw [probe_iovLen (by decide), if_neg (by omega)]
  rw [hzero, msgTotal, hiov, hlen] at hmod
  exact probe_iovTotal (by decide) (by omega) hmod.symm

/-- With a given number of buffers, the right lengths are read in every memory exactly if
there is at most one. -/
theorem strideTotal_modEq_iff (msg n : UInt64) :
    (∀ mem, msgIovlen mem msg = n → strideTotal mem msg ≡ msgTotal mem msg [MOD 2 ^ 64]) ↔
      n.toNat ≤ 1 := by
  constructor
  · intro h
    by_contra hn
    obtain ⟨hlen, hwrong⟩ := strideTotal_probe msg (n := n) (by omega)
    exact hwrong (h _ hlen)
  · intro hn mem hlen
    rw [strideTotal_of_le_one (hlen ▸ hn)]

/-- **The length of a message.** In a given memory it is right exactly if the
lengths of the entries `0, 16, 32, …` add up to those of the entries `0, 1, 2, …`,
modulo `2 ^ 64`. With a given number of buffers it is right in every memory exactly
if there is at most one. -/
theorem message_length_iff (tcp : Tcb) (msgPos : Fin 6) :
    (∀ mem, MsgLengthRight mem tcp msgPos ↔
      strideTotal mem (tcp.uArg msgPos) ≡ msgTotal mem (tcp.uArg msgPos) [MOD 2 ^ 64]) ∧
    ∀ n : UInt64, (∀ mem, msgIovlen mem (tcp.uArg msgPos) = n → MsgLengthRight mem tcp msgPos) ↔
      n.toNat ≤ 1 := by
  refine ⟨fun mem => msgLengthRight_iff mem tcp msgPos, fun n => ?_⟩
  simp only [msgLengthRight_iff]
  exact strideTotal_modEq_iff (tcp.uArg msgPos) n

/-- A `msghdr` at `0x1000` with two buffers, of three and five bytes, described at
`0x2000`. -/
def twoBuffers : TraceeMemory := fun a =>
  if a = 0x1010 then 0x2000
  else if a = 0x1018 then 2
  else if a = 0x2008 then 3
  else if a = 0x2018 then 5
  else 0

/-- Its length is given as `3`. -/
theorem twoBuffers_length :
    ¬MsgLengthRight twoBuffers ⟨0, 46, fun _ => 0x1000, 0, 0, none⟩ 1 := by
  intro h
  exact absurd h.1 (by decide)

/-! ## Several messages -/

/-- `get_length_from_mmsg` returns the number of bytes of all messages. -/
def MmsgLengthRight (mem : TraceeMemory) (tcp : Tcb) (msgvecPos vlenPos : Fin 6) : Prop :=
  (getLengthFromMmsg mem tcp msgvecPos vlenPos).toNat
    = mmsgTotal mem (tcp.uArg msgvecPos) (tcp.uArg vlenPos) % 2 ^ 64

theorem mmsgLengthRight_iff (mem : TraceeMemory) (tcp : Tcb) (msgvecPos vlenPos : Fin 6) :
    MmsgLengthRight mem tcp msgvecPos vlenPos ↔
      mmsgStrideTotal mem (tcp.uArg msgvecPos) (tcp.uArg vlenPos)
        ≡ mmsgTotal mem (tcp.uArg msgvecPos) (tcp.uArg vlenPos) [MOD 2 ^ 64] := by
  unfold MmsgLengthRight
  rw [getLengthFromMmsg_toNat]
  rfl

/-- Right are a first message with at most one buffer and empty ones after it. -/
theorem mmsgStrideTotal_of_le {mem : TraceeMemory} {vec vlen : UInt64}
    (h : ∀ i < vlen.toNat, (msgIovlen mem (mmsgAt vec i)).toNat ≤ if i = 0 then 1 else 0) :
    mmsgStrideTotal mem vec vlen = mmsgTotal mem vec vlen := by
  refine sum_congr rfl fun i hi => sum_congr rfl fun j hj => ?_
  have hcount := h i (mem_range.mp hi)
  have hlt := mem_range.mp hj
  split at hcount
  · next hzero =>
    have hj : j = 0 := by omega
    rw [hzero, hj, Nat.mul_zero]
  · omega

/-- The marked entry of message `bad` is not read if it is not entry `16 * bad`. -/
theorem mmsgStrideTotal_probe (vec : UInt64) {vlen : UInt64} {counts : Nat → UInt64}
    {bad k : Nat} (hvlen : vlen.toNat < 2 ^ 32) (hbad : bad < vlen.toNat) (hk : k ≤ 1)
    (hcount : k < (counts bad).toNat) (hmiss : 16 * bad ≠ k) :
    ¬mmsgStrideTotal (probeMemory vec counts bad k) vec vlen
      ≡ mmsgTotal (probeMemory vec counts bad k) vec vlen [MOD 2 ^ 64] := by
  have hzero : mmsgStrideTotal (probeMemory vec counts bad k) vec vlen = 0 := by
    refine sum_eq_zero fun i hi => sum_eq_zero fun j _ => ?_
    have hlt := mem_range.mp hi
    rw [probe_msgIov (by omega)]
    split
    · next heq =>
      rw [heq, probe_iovLen hk, if_neg]
      rw [Nat.mod_eq_of_lt (by omega)]
      exact hmiss
    · exact probe_iovLen_other _
  have htotal : mmsgTotal (probeMemory vec counts bad k) vec vlen
      = iovTotal (probeMemory vec counts bad k) (vec + 60) (counts bad) := by
    rw [mmsgTotal, sum_eq_single_of_mem bad (mem_range.mpr hbad)]
    · rw [msgTotal, probe_msgIov (by omega), if_pos rfl, probe_msgIovlen (by omega)]
    · intro i hi hne
      have hlt := mem_range.mp hi
      rw [msgTotal, probe_msgIov (by omega), if_neg hne]
      exact sum_eq_zero fun j _ => probe_iovLen_other j
  intro hmod
  rw [hzero, htotal] at hmod
  exact probe_iovTotal hk hcount hmod.symm

/-- **The length of several messages.** In a given memory it is right exactly if, for
each message `i`, the length of its entry `16 * i`, taken once for each of its
buffers, adds up to the lengths of all buffers, modulo `2 ^ 64`. For given numbers of
buffers it is right in every memory exactly if the first message has at most one
buffer and the others have none. (`vlen` is an `unsigned int`.) -/
theorem multi_message_length_iff (tcp : Tcb) (msgvecPos vlenPos : Fin 6) :
    (∀ mem, MmsgLengthRight mem tcp msgvecPos vlenPos ↔
      mmsgStrideTotal mem (tcp.uArg msgvecPos) (tcp.uArg vlenPos)
        ≡ mmsgTotal mem (tcp.uArg msgvecPos) (tcp.uArg vlenPos) [MOD 2 ^ 64]) ∧
    ((tcp.uArg vlenPos).toNat < 2 ^ 32 → ∀ counts : Nat → UInt64,
      (∀ mem, (∀ i < (tcp.uArg vlenPos).toNat,
          msgIovlen mem (mmsgAt (tcp.uArg msgvecPos) i) = counts i) →
        MmsgLengthRight mem tcp msgvecPos vlenPos) ↔
      ∀ i < (tcp.uArg vlenPos).toNat, (counts i).toNat ≤ if i = 0 then 1 else 0) := by
  refine ⟨fun mem => mmsgLengthRight_iff mem tcp msgvecPos vlenPos,
    fun hvlen counts => ⟨fun h => ?_, fun h mem hcounts => ?_⟩⟩
  · intro bad hbad
    by_contra hmany
    -- the second entry of an array that has one, else the first
    obtain ⟨k, hk, hcount, hmiss⟩ : ∃ k ≤ 1, k < (counts bad).toNat ∧ 16 * bad ≠ k := by
      split at hmany
      · exact ⟨1, le_rfl, by omega, by omega⟩
      · exact ⟨0, Nat.zero_le 1, by omega, by omega⟩
    refine mmsgStrideTotal_probe (tcp.uArg msgvecPos) hvlen hbad hk hcount hmiss ?_
    refine (mmsgLengthRight_iff _ tcp msgvecPos vlenPos).mp (h _ fun i hi => ?_)
    exact probe_msgIovlen (by omega)
  · rw [mmsgLengthRight_iff, mmsgStrideTotal_of_le]
    intro i hi
    rw [hcounts i hi]
    exact h i hi

/-- Two `mmsghdr`s at `0x1000` with one buffer each, of three and five bytes,
described at `0x2000` and `0x2010`. -/
def twoMessages : TraceeMemory := fun a =>
  if a = 0x1010 then 0x2000
  else if a = 0x1018 then 1
  else if a = 0x1050 then 0x2010
  else if a = 0x1058 then 1
  else if a = 0x2008 then 3
  else if a = 0x2018 then 5
  else 0

/-- The registers of `sendmmsg(5, 0x1000, 2, 0)`. -/
def sendTwo : Tcb := ⟨0, 307, fun i => [5, 0x1000, 2, 0, 0, 0].getD i.val 0, 0, 0, none⟩

/-- Their length is given as `3`. -/
theorem twoMessages_length : ¬MmsgLengthRight twoMessages sendTwo 1 2 := by
  unfold MmsgLengthRight
  decide

end DistFuzz.Injector
