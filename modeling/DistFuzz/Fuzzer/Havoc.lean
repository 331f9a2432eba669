import DistFuzz.Lib.Block
import DistFuzz.Lib.Draw

/-!
# Random stacked mutations (FuzzOne.cpp:229–242, 758–1128)

`Havoc` stacks up to `2^15` random mutations on a copy of a seed, executes the
result, puts the seed back and starts over. Mutations delete, clone and insert,
so the buffer is replaced by larger and smaller ones on the way, and lengths are
cut to 32 bits whenever they reach `randNum`.

All memory is accessed through checked blocks and all random numbers come from
an arbitrary stream. `count` in `randNum` is never increased, so its call of
`srand` is dead. `FuzzUnit` takes the length of a case as a `u64` and hands it to
`WriteToTestcase`, which takes a `u32`: of a buffer of `2^32` bytes nothing is
executed.

- `randNum`, `chooseBlockLen`, the operators of the switch, `mutate`, `restore`,
  `havoc`; `caseOf`, what is executed of a buffer.
- `randNum_le`, `chooseBlockLen_spec`, …: the bounds of what is drawn, for lengths
  cut to 32 bits as well; `block_len_choice`, for the limits from 1 on.
-/

namespace DistFuzz.Fuzzer

open DistFuzz.Lib

/-! ## Constants -/

def maxFileLen : UInt64 := 1024 * 1024
def arithMax : UInt32 := 35
def havocCyclesInit : UInt32 := 8
def havocStackPow2 : UInt32 := 15
def havocBlkSmall : UInt32 := 32
def havocBlkMedium : UInt32 := 128
def havocBlkLarge : UInt32 := 1500
def havocBlkXl : UInt32 := 32768
def havocInitMult : UInt32 := 1
def havocMaxMult : UInt32 := 16

/-- `INTERESTING_8`. -/
def interestingBytes : List Int := [-128, -1, 0, 1, 16, 32, 64, 100, 127]

/-- `INTERESTING_16`. -/
def interestingWords : List Int :=
  [-32768, -129, 128, 255, 256, 512, 1000, 1024, 4096, 32767]

/-- `INTERESTING_32`. -/
def interestingDwords : List Int :=
  [-2147483648, -100663046, -32769, 32768, 65535, 65536, 100663045, 2147483647]

def interesting8 : List (BitVec 8) := interestingBytes.map (BitVec.ofInt 8)

def interesting16 : List (BitVec 16) := (interestingBytes ++ interestingWords).map (BitVec.ofInt 16)

def interesting32 : List (BitVec 32) :=
  (interestingBytes ++ interestingWords ++ interestingDwords).map (BitVec.ofInt 32)

/-- `SWAP16`. -/
def swap16 (x : BitVec 16) : BitVec 16 := x <<< 8 ||| x >>> 8

/-- `SWAP32`. -/
def swap32 (x : BitVec 32) : BitVec 32 :=
  x <<< 24 ||| x >>> 24 ||| (x <<< 8 &&& 0x00ff0000) ||| (x >>> 8 &&& 0x0000ff00)

/-! ## The state -/

/-- The locals `filemap` and `temp_len` of `Havoc`. -/
structure HavocBuf where
  filemap : Block
  tempLen : UInt64

/-- The globals that `Havoc` reads: the two dictionaries in the order of their
maps, and the queue cycle. -/
structure HavocEnv where
  pointedToken : List Block
  autoToken : List Block
  queueCycle : UInt64

/-- Replace the content of the buffer. -/
def HavocBuf.change (m : HavocBuf) (f : Block → Option Block) : Draw UInt32 HavocBuf := do
  return { m with filemap := ← check (f m.filemap) }

/-! ## Random choices -/

/-- `randNum`. -/
def randNum (denominator : UInt32) : Draw UInt32 UInt32 :=
  if denominator = 0 then pure 0 else do return (← draw) % denominator

/-- The bounds that `choose_block_len` picks. -/
def blockBounds (queueCycle : UInt64) : Draw UInt32 (UInt32 × UInt32) := do
  -- early in a campaign only the smaller sizes are drawn
  let rlim := (min queueCycle 3).toUInt32
  match (← randNum rlim).toNat with
  | 0 => pure (1, havocBlkSmall)
  | 1 => pure (havocBlkSmall, havocBlkMedium)
  | _ =>
    if (← randNum 10) ≠ 0 then pure (havocBlkMedium, havocBlkLarge)
    else pure (havocBlkLarge, havocBlkXl)

/-- `choose_block_len`. -/
def chooseBlockLen (queueCycle : UInt64) (limit : UInt32) : Draw UInt32 UInt32 := do
  let (minValue, maxValue) ← blockBounds queueCycle
  let minValue := if minValue ≥ limit then 1 else minValue
  return minValue + (← randNum (min maxValue limit - minValue + 1))

/-- `randNum(2) ? randNum(256) : filemap[randNum(temp_len)]`. -/
def fillByte (m : HavocBuf) : Draw UInt32 UInt8 := do
  if (← randNum 2) ≠ 0 then return (← randNum 256).toUInt8
  else check m.filemap.bytes[(← randNum m.tempLen.toUInt32).toNat]?

/-- The dictionary to take an extra from. -/
def chooseTokens (env : HavocEnv) : Draw UInt32 (List Block) := do
  if env.pointedToken.isEmpty then pure env.autoToken
  else if env.autoToken.isEmpty then pure env.pointedToken
  else if (← randNum 2) ≠ 0 then pure env.autoToken
  else pure env.pointedToken

/-- The extra itself. -/
def chooseExtra (env : HavocEnv) : Draw UInt32 Block := do
  let tokens ← chooseTokens env
  let useExtra ← randNum (UInt32.ofNat tokens.length)
  check tokens[useExtra.toNat]?

/-! ## The operators

C++14 leaves the order of the two draws in `filemap[randNum(a)] = t[randNum(b)]`
open; they are taken from left to right. -/

/-- Case 0: flip a bit. -/
def flipBit (m : HavocBuf) : Draw UInt32 HavocBuf := do
  let bit ← randNum (m.tempLen <<< 3).toUInt32
  m.change fun b => b.modifyWord 1 (bit >>> 3).toNat fun x => x ^^^ 128#8 >>> (bit &&& 7).toNat

/-- Case 1: an interesting byte. -/
def setByte (m : HavocBuf) : Draw UInt32 HavocBuf := do
  let pos ← randNum m.tempLen.toUInt32
  let x ← check interesting8[(← randNum (UInt32.ofNat interesting8.length)).toNat]?
  m.change fun b => b.storeWord (w := 1) pos.toNat x

/-- Cases 2 and 3: an interesting value of `w` bytes, in either byte order. -/
def setWord (w : Nat) (values : List (BitVec (8 * w))) (swap : BitVec (8 * w) → BitVec (8 * w))
    (m : HavocBuf) : Draw UInt32 HavocBuf := do
  if m.tempLen < UInt64.ofNat w then pure m
  else
    let plain ← randNum 2
    let pos ← randNum (m.tempLen - UInt64.ofNat (w - 1)).toUInt32
    let x ← check values[(← randNum (UInt32.ofNat values.length)).toNat]?
    m.change fun b => b.storeWord pos.toNat (if plain ≠ 0 then x else swap x)

/-- Cases 4, 5 and 10: change a byte by `1 + randNum(denominator)`. -/
def changeByte (denominator : UInt32) (op : BitVec 8 → BitVec 8 → BitVec 8) (m : HavocBuf) :
    Draw UInt32 HavocBuf := do
  let pos ← randNum m.tempLen.toUInt32
  let num := BitVec.ofNat 8 (1 + (← randNum denominator)).toNat
  m.change fun b => b.modifyWord 1 pos.toNat fun x => op x num

/-- Cases 6 to 9: change a word of `w` bytes, in either byte order. -/
def changeWord (w : Nat) (swap : BitVec (8 * w) → BitVec (8 * w))
    (op : BitVec (8 * w) → BitVec (8 * w) → BitVec (8 * w)) (m : HavocBuf) :
    Draw UInt32 HavocBuf := do
  if m.tempLen < UInt64.ofNat w then pure m
  else
    let plain ← randNum 2
    let pos ← randNum (m.tempLen - UInt64.ofNat (w - 1)).toUInt32
    let num := BitVec.ofNat (8 * w) (1 + (← randNum arithMax)).toNat
    m.change fun b => b.modifyWord w pos.toNat fun x =>
      if plain ≠ 0 then op x num else swap (op (swap x) num)

/-- Cases 11 and 12: delete a block. -/
def deleteBlock (env : HavocEnv) (m : HavocBuf) : Draw UInt32 HavocBuf := do
  if m.tempLen < 2 then pure m
  else
    let delLen ← chooseBlockLen env.queueCycle (m.tempLen - 1).toUInt32
    let delFrom ← randNum (m.tempLen - delLen.toUInt64 + 1).toUInt32
    let filemap ← check (m.filemap.memcpy delFrom.toNat m.filemap (delFrom.toNat + delLen.toNat)
      (m.tempLen - delFrom.toUInt64 - delLen.toUInt64).toNat)
    return ⟨filemap, m.tempLen - delLen.toUInt64⟩

/-- A new buffer with `n` bytes put in at `pos`, by `insert`; head and tail are
copied over. -/
def HavocBuf.splice (m : HavocBuf) (pos n : UInt32) (insert : Block → Option Block) :
    Option HavocBuf := do
  let newBuf ← Block.new (m.tempLen + n.toUInt64).toNat
  -- Head
  let newBuf ← newBuf.memcpy 0 m.filemap 0 pos.toNat
  -- Inserted part
  let newBuf ← insert newBuf
  -- Tail
  let newBuf ← newBuf.memcpy (pos.toNat + n.toNat) m.filemap pos.toNat
    (m.tempLen - pos.toUInt64).toNat
  return ⟨newBuf, m.tempLen + n.toUInt64⟩

/-- Case 13: clone a block, or insert a block of one byte. -/
def cloneBlock (env : HavocEnv) (m : HavocBuf) : Draw UInt32 HavocBuf := do
  if m.tempLen + havocBlkXl.toUInt64 < maxFileLen then
    if (← randNum 4) ≠ 0 then
      let cloneLen ← chooseBlockLen env.queueCycle m.tempLen.toUInt32
      let cloneFrom ← randNum (m.tempLen - cloneLen.toUInt64 + 1).toUInt32
      let cloneTo ← randNum m.tempLen.toUInt32
      check (m.splice cloneTo cloneLen fun b =>
        b.memcpy cloneTo.toNat m.filemap cloneFrom.toNat cloneLen.toNat)
    else
      let cloneLen ← chooseBlockLen env.queueCycle havocBlkXl
      let cloneTo ← randNum m.tempLen.toUInt32
      let fill ← fillByte m
      check (m.splice cloneTo cloneLen fun b => b.memset cloneTo.toNat fill cloneLen.toNat)
  else pure m

/-- Case 14: overwrite a block with another one, or with one byte. -/
def overwriteBlock (env : HavocEnv) (m : HavocBuf) : Draw UInt32 HavocBuf := do
  if m.tempLen < 2 then pure m
  else
    let copyLen ← chooseBlockLen env.queueCycle (m.tempLen - 1).toUInt32
    let copyFrom ← randNum (m.tempLen - copyLen.toUInt64 + 1).toUInt32
    let copyTo ← randNum (m.tempLen - copyLen.toUInt64 + 1).toUInt32
    if (← randNum 4) ≠ 0 then
      if copyFrom ≠ copyTo then
        m.change fun b => b.memcpy copyTo.toNat b copyFrom.toNat copyLen.toNat
      else pure m
    else
      let fill ← fillByte m
      m.change fun b => b.memset copyTo.toNat fill copyLen.toNat

/-- Case 15: overwrite bytes with an extra. -/
def overwriteExtra (env : HavocEnv) (m : HavocBuf) : Draw UInt32 HavocBuf := do
  let extra ← chooseExtra env
  let extraLen := UInt32.ofNat extra.size
  if extraLen.toUInt64 > m.tempLen then pure m
  else
    let insertAt ← randNum (m.tempLen - extraLen.toUInt64 + 1).toUInt32
    m.change fun b => b.memcpy insertAt.toNat extra 0 extraLen.toNat

/-- Case 16: insert an extra. -/
def insertExtra (env : HavocEnv) (m : HavocBuf) : Draw UInt32 HavocBuf := do
  let insertAt ← randNum (m.tempLen + 1).toUInt32
  let extra ← chooseExtra env
  let extraLen := UInt32.ofNat extra.size
  if m.tempLen + extraLen.toUInt64 ≥ maxFileLen then pure m
  else check (m.splice insertAt extraLen fun b => b.memcpy insertAt.toNat extra 0 extraLen.toNat)

/-- One turn of the inner loop. -/
def mutate (env : HavocEnv) (m : HavocBuf) : Draw UInt32 HavocBuf := do
  let operators := if env.pointedToken.length + env.autoToken.length ≠ 0 then 17 else 15
  match (← randNum operators).toNat with
  | 0 => flipBit m
  | 1 => setByte m
  | 2 => setWord 2 interesting16 swap16 m
  | 3 => setWord 4 interesting32 swap32 m
  | 4 => changeByte arithMax (· - ·) m
  | 5 => changeByte arithMax (· + ·) m
  | 6 => changeWord 2 swap16 (· - ·) m
  | 7 => changeWord 2 swap16 (· + ·) m
  | 8 => changeWord 4 swap32 (· - ·) m
  | 9 => changeWord 4 swap32 (· + ·) m
  | 10 => changeByte 255 (· ^^^ ·) m
  | 11 => deleteBlock env m
  | 12 => deleteBlock env m
  | 13 => cloneBlock env m
  | 14 => overwriteBlock env m
  | 15 => overwriteExtra env m
  | 16 => insertExtra env m
  | _ => pure m

/-! ## The loops -/

/-- The buffer for the next round: a new one if the case was shorter than the
seed, else the one held. -/
def roundBuffer (len : UInt64) (m : HavocBuf) : Option Block :=
  if m.tempLen < len then Block.new len.toNat else some m.filemap

/-- The end of a round: the seed is put back. -/
def restore (origBuf : Block) (len : UInt64) (m : HavocBuf) : Option HavocBuf := do
  let filemap ← roundBuffer len m
  return ⟨← filemap.memcpy 0 origBuf 0 len.toNat, len⟩

/-- What `FuzzUnit` returns, and the size of the queue then. -/
structure UnitResult where
  error : Bool
  queueSize : UInt32

/-- What happens to the buffer, in order. -/
inductive HavocEvent where
  | mutated (m : HavocBuf)
  | executed (m : HavocBuf) (case : List UInt8)
  | restored (m : HavocBuf)

/-- The buffer then. -/
def HavocEvent.buf : HavocEvent → HavocBuf
  | .mutated m => m
  | .executed m _ => m
  | .restored m => m

/-- `havoc_time` after a round. -/
def nextHavocTime (havocTime : Nat) (queueInitSize queueHavocSize : UInt32) : Nat :=
  if queueHavocSize > queueInitSize ∧ havocTime < (havocCyclesInit * havocMaxMult).toNat then
    havocTime * 2
  else havocTime

/-- Rounds are doubled only while there are few. -/
theorem nextHavocTime_le (havocTime : Nat) (queueInitSize queueHavocSize : UInt32) :
    nextHavocTime havocTime queueInitSize queueHavocSize ≤ max havocTime 256 := by
  have hmax : (havocCyclesInit * havocMaxMult).toNat = 128 := rfl
  rw [nextHavocTime, hmax]
  split <;> omega

/-- What reaches the test file of a buffer: its first `len` bytes, where `WriteToTestcase`
cuts `len` to 32 bits. -/
def caseOf (len : UInt64) (bytes : List UInt8) : List UInt8 := bytes.take len.toUInt32.toNat

/-- The outer loop of `Havoc`: what it returns, and what happened on the way.
`units i` is the outcome of the execution in round `i`. -/
def havocLoop (env : HavocEnv) (origBuf : Block) (len : UInt64) (units : Nat → UnitResult)
    (i havocTime : Nat) (queueInitSize : UInt32) (m : HavocBuf) :
    Draw UInt32 (UInt8 × List HavocEvent) :=
  if i < havocTime then do
    let mutateTime := (1 : UInt32) <<< (1 + (← randNum havocStackPow2))
    let (m, passed) ← iterate (mutate env) mutateTime.toNat m
    -- `WriteToTestcase` reads the case from the buffer, with a `u32` length
    let case ← check (m.filemap.read 0 m.tempLen.toUInt32.toNat)
    let events := passed.map .mutated ++ [.executed m case]
    if (units i).error then return (1, events)
    else
      let m ← check (restore origBuf len m)
      let queueHavocSize := (units i).queueSize
      let (ret, later) ← havocLoop env origBuf len units (i + 1)
        (nextHavocTime havocTime queueInitSize queueHavocSize) queueHavocSize m
      return (ret, events ++ .restored m :: later)
  else return (0, [])
termination_by max havocTime 256 - i
decreasing_by
  have hle := nextHavocTime_le havocTime queueInitSize (units i).queueSize
  omega

/-- `Havoc` on a buffer whose first `len` bytes are the seed. -/
def havoc (env : HavocEnv) (len : UInt64) (buf : Block) (cycles queueInitSize : UInt32)
    (units : Nat → UnitResult) : Draw UInt32 (UInt8 × List HavocEvent) := do
  let origBuf ← check (Block.new len.toNat)
  let origBuf ← check (origBuf.memcpy 0 buf 0 len.toNat)
  havocLoop env origBuf len units 0 (cycles * havocInitMult).toNat queueInitSize ⟨buf, len⟩

/-! ## Bounds of the random choices -/

/-- Cutting a length to 32 bits does not make it longer. -/
theorem toNat_cut_le (x : UInt64) : x.toUInt32.toNat ≤ x.toNat := by
  rw [UInt64.toNat_toUInt32]
  exact Nat.mod_le _ _

/-- The same for the size of a container. -/
theorem toNat_size_le (n : Nat) : (UInt32.ofNat n).toNat ≤ n := by
  rw [UInt32.toNat_ofNat']
  exact Nat.mod_le _ _

theorem caseOf_eq {len : UInt64} {bytes : List UInt8} (hlen : bytes.length = len.toNat)
    (hsmall : len.toNat < 2 ^ 32) : caseOf len bytes = bytes := by
  rw [caseOf, UInt64.toNat_toUInt32, Nat.mod_eq_of_lt hsmall, ← hlen, List.take_length]

/-- A buffer that holds `len` bytes holds the case. -/
theorem read_case {b : Block} {len : UInt64} (h : len.toNat ≤ b.size) :
    b.read 0 len.toUInt32.toNat = some (caseOf len b.bytes) :=
  Block.read_front ((toNat_cut_le len).trans h)

/-- A file of 4 GiB. -/
def hugeSeed : Block := ⟨List.replicate (2 ^ 32) 0, by rw [List.length_replicate]; decide⟩

theorem size_hugeSeed : hugeSeed.size = 2 ^ 32 := List.length_replicate

/-- A length plus one, without wrapping. -/
theorem toNat_succ_length {a : UInt64} (ha : a.toNat < 2 ^ 63) :
    (a + 1).toNat = a.toNat + 1 := by
  rw [UInt64.toNat_add, UInt64.toNat_one]
  exact Nat.mod_eq_of_lt (by omega)

/-- A length plus a 32-bit one, without wrapping. -/
theorem toNat_add_length {a : UInt64} (ha : a.toNat < 2 ^ 63) (n : UInt32) :
    (a + n.toUInt64).toNat = a.toNat + n.toNat := by
  have hn := n.toNat_lt
  rw [UInt64.toNat_add, UInt32.toNat_toUInt64]
  exact Nat.mod_eq_of_lt (by omega)

/-- A length minus a 32-bit one, without wrapping. -/
theorem toNat_sub_length {a : UInt64} {n : UInt32} (h : n.toNat ≤ a.toNat) :
    (a - n.toUInt64).toNat = a.toNat - n.toNat := by
  have hle : n.toUInt64 ≤ a := by rwa [UInt64.le_iff_toNat_le, UInt32.toNat_toUInt64]
  rw [UInt64.toNat_sub_of_le _ _ hle, UInt32.toNat_toUInt64]

/-- `randNum` stays below its argument, or is zero. -/
theorem randNum_le (d : UInt32) : Ensures (randNum d) fun r => r.toNat ≤ d.toNat - 1 := by
  rw [randNum]
  split
  · exact ensures_pure (Nat.zero_le _)
  · next hd =>
    have hpos : 0 < d.toNat := by
      refine Nat.pos_of_ne_zero fun h => hd (UInt32.toNat_inj.mp h)
    refine ensures_draw.bind fun r _ => ensures_pure ?_
    have hlt : r.toNat % d.toNat < d.toNat := Nat.mod_lt _ hpos
    rw [UInt32.toNat_mod]
    omega

/-- Zeros are handed through. -/
theorem randNum_zeros (d : UInt32) :
    randNum d (Stream'.const 0) = some (0, Stream'.const 0) := by
  rw [randNum]
  split
  · rfl
  · show some ((0 : UInt32) % d, _) = _
    rw [UInt32.zero_mod]
    rfl

theorem randNum_bind {α : Type} {d : UInt32} (hd : d ≠ 0) (f : UInt32 → Draw UInt32 α)
    (rand : Stream' UInt32) : (randNum d >>= f) rand = f (rand.head % d) rand.tail := by
  rw [randNum, if_neg hd]
  rfl

/-- The same for a length that is cut to 32 bits first. -/
theorem randNum_length_le (x : UInt64) :
    Ensures (randNum x.toUInt32) fun r => r.toNat ≤ x.toNat - 1 := by
  refine (randNum_le _).mono fun r hr => ?_
  have hcut := toNat_cut_le x
  omega

/-- A position for a block of length `n` in a buffer of length `a`. -/
theorem randNum_position_le {a : UInt64} {n : UInt32} (hn : n.toNat ≤ a.toNat)
    (ha : a.toNat < 2 ^ 63) :
    Ensures (randNum (a - n.toUInt64 + 1).toUInt32) fun r => r.toNat + n.toNat ≤ a.toNat := by
  refine (randNum_length_le _).mono fun r hr => ?_
  have hsub := toNat_sub_length hn
  have hsucc : (a - n.toUInt64 + 1).toNat = (a - n.toUInt64).toNat + 1 :=
    toNat_succ_length (by omega)
  omega

theorem blockBounds_spec (queueCycle : UInt64) :
    Ensures (blockBounds queueCycle) fun b =>
      1 ≤ b.1.toNat ∧ b.1.toNat ≤ b.2.toNat ∧ b.2.toNat ≤ havocBlkXl.toNat := by
  refine (randNum_le _).bind fun r _ => ?_
  split
  · exact ensures_pure (by decide)
  · exact ensures_pure (by decide)
  · refine (randNum_le _).bind fun r _ => ?_
    split
    · exact ensures_pure (by decide)
    · exact ensures_pure (by decide)

/-- `min_value + randNum(top - min_value + 1)` does not wrap. -/
theorem randNum_between {v top : UInt32} (hv : v.toNat ≤ top.toNat)
    (htop : top.toNat ≤ havocBlkXl.toNat) :
    Ensures (randNum (top - v + 1)) fun r => (v + r).toNat = v.toNat + r.toNat ∧
      v.toNat + r.toNat ≤ top.toNat := by
  have hxl : havocBlkXl.toNat = 32768 := rfl
  refine (randNum_le _).mono fun r hr => ?_
  have hsub : (top - v).toNat = top.toNat - v.toNat :=
    UInt32.toNat_sub_of_le _ _ (UInt32.le_iff_toNat_le.mpr hv)
  have hadd : (top - v + 1).toNat = top.toNat - v.toNat + 1 := by
    rw [UInt32.toNat_add, hsub, UInt32.toNat_one]
    exact Nat.mod_eq_of_lt (by omega)
  refine ⟨?_, by omega⟩
  rw [UInt32.toNat_add]
  exact Nat.mod_eq_of_lt (by omega)

/-- `min_value` after it was adjusted to the limit. -/
theorem adjusted_fits {minValue maxValue limit : UInt32} (hmin : 1 ≤ minValue.toNat)
    (hle : minValue.toNat ≤ maxValue.toNat) (hlimit : 1 ≤ limit.toNat) :
    1 ≤ (if minValue ≥ limit then 1 else minValue).toNat ∧
      (if minValue ≥ limit then 1 else minValue) ≤ min maxValue limit := by
  rw [UInt32.le_iff_toNat_le, UInt32.toNat_min]
  split
  · rw [UInt32.toNat_one]
    omega
  · next hlt =>
    have hlt' : minValue.toNat < limit.toNat :=
      UInt32.lt_iff_toNat_lt.mp (UInt32.not_le.mp hlt)
    omega

/-- A block is not empty, fits the limit and is at most `HAVOC_BLK_XL` long. -/
theorem chooseBlockLen_spec (queueCycle : UInt64) (limit : UInt32) :
    Ensures (chooseBlockLen queueCycle limit) fun n =>
      1 ≤ n.toNat ∧ n.toNat ≤ max 1 limit.toNat ∧ n.toNat ≤ havocBlkXl.toNat := by
  have hxl : havocBlkXl.toNat = 32768 := rfl
  refine (blockBounds_spec queueCycle).bind ?_
  rintro ⟨minValue, maxValue⟩ ⟨hmin, hle, hmax⟩
  dsimp only at hmin hle hmax ⊢
  by_cases hzero : limit = 0
  · -- a length whose low 32 bits are zero: `min(max_value, 0) - 1 + 1` is zero
    have harg : min maxValue limit - 1 + 1 = 0 := by
      rw [UInt32.sub_add_cancel, hzero]
      exact UInt32.toNat_inj.mp (by rw [UInt32.toNat_min]; exact Nat.min_zero _)
    have hv : minValue ≥ limit := by
      rw [hzero]
      exact UInt32.le_iff_toNat_le.mpr (Nat.zero_le _)
    rw [if_pos hv, harg]
    refine (randNum_le 0).bind fun r hr => ensures_pure ?_
    obtain rfl : r = 0 := UInt32.toNat_inj.mp (Nat.le_zero.mp hr)
    exact ⟨by decide, le_max_left _ _, by decide⟩
  · have hpos : 1 ≤ limit.toNat :=
      Nat.pos_of_ne_zero fun h => hzero (UInt32.toNat_inj.mp h)
    obtain ⟨hone, hfit⟩ := adjusted_fits hmin hle hpos
    generalize (if minValue ≥ limit then 1 else minValue) = v at hone hfit
    have htop : (min maxValue limit).toNat = min maxValue.toNat limit.toNat :=
      UInt32.toNat_min _ _
    rw [UInt32.le_iff_toNat_le] at hfit
    refine (randNum_between hfit (by omega)).bind fun r hr => ensures_pure ?_
    omega

/-- **Block length choice.** For every limit from 1 on, every queue cycle and whatever
is drawn, the length is between 1 and the limit and at most `HAVOC_BLK_XL`, and
`min(max_value, limit) - min_value + 1` is what it is without wrapping. -/
theorem block_len_choice (queueCycle : UInt64) (limit : UInt32) (hlimit : 1 ≤ limit) :
    Ensures (chooseBlockLen queueCycle limit)
      (fun n => 1 ≤ n ∧ n ≤ limit ∧ n ≤ havocBlkXl) ∧
    Ensures (blockBounds queueCycle) fun b =>
      (if b.1 ≥ limit then 1 else b.1) ≤ min b.2 limit ∧
      (min b.2 limit - (if b.1 ≥ limit then 1 else b.1) + 1).toNat
        = min b.2.toNat limit.toNat - (if b.1 ≥ limit then 1 else b.1).toNat + 1 := by
  constructor
  · refine (chooseBlockLen_spec queueCycle limit).mono ?_
    rintro n ⟨hone, hle, hxl⟩
    have hpos : 1 ≤ limit.toNat := UInt32.le_iff_toNat_le.mp hlimit
    refine ⟨UInt32.le_iff_toNat_le.mpr hone, UInt32.le_iff_toNat_le.mpr ?_,
      UInt32.le_iff_toNat_le.mpr hxl⟩
    omega
  · have hxl : havocBlkXl.toNat = 32768 := rfl
    refine (blockBounds_spec queueCycle).mono ?_
    rintro ⟨minValue, maxValue⟩ ⟨hmin, hle, hmax⟩
    have hfit := (adjusted_fits hmin hle (UInt32.le_iff_toNat_le.mp hlimit)).2
    refine ⟨hfit, ?_⟩
    rw [UInt32.toNat_add, UInt32.toNat_sub_of_le _ _ hfit, UInt32.toNat_min, UInt32.toNat_one]
    exact Nat.mod_eq_of_lt (by omega)

/-- A limit of 100 bytes, inside the band of the middle sizes. -/
theorem block_len_choice_hundred :
    Ensures (chooseBlockLen 5 100) (fun n => 1 ≤ n ∧ n ≤ 100 ∧ n ≤ havocBlkXl) :=
  (block_len_choice 5 100 (by decide)).1

/-- The same for a limit that is a length cut to 32 bits. -/
theorem chooseBlockLen_length (queueCycle : UInt64) {x : UInt64} (hx : 1 ≤ x.toNat) :
    Ensures (chooseBlockLen queueCycle x.toUInt32) fun n =>
      1 ≤ n.toNat ∧ n.toNat ≤ x.toNat ∧ n.toNat ≤ havocBlkXl.toNat := by
  refine (chooseBlockLen_spec _ _).mono fun n hn => ?_
  have hcut := toNat_cut_le x
  omega

/-- An index into a table that is not empty. -/
theorem randNum_index {α : Type} {l : List α} (hl : 0 < l.length) :
    Ensures (randNum (UInt32.ofNat l.length)) fun r => r.toNat < l.length := by
  refine (randNum_le _).mono fun r hr => ?_
  have hcut := toNat_size_le l.length
  omega

theorem ensures_getElem {α : Type} {l : List α} {r : UInt32} (hr : r.toNat < l.length) :
    Ensures (check l[r.toNat]? : Draw UInt32 α) fun _ => True :=
  ensures_check ⟨_, List.getElem?_eq_getElem hr, trivial⟩

theorem chooseExtra_spec {env : HavocEnv}
    (h : env.pointedToken.length + env.autoToken.length ≠ 0) :
    Ensures (chooseExtra env) fun _ => True := by
  have htokens : Ensures (chooseTokens env) fun tokens => 0 < tokens.length := by
    rw [chooseTokens]
    split
    · next hp =>
      rw [List.isEmpty_iff] at hp
      rw [hp, List.length_nil, Nat.zero_add] at h
      exact ensures_pure (Nat.pos_of_ne_zero h)
    · next hp =>
      have hp' : 0 < env.pointedToken.length := by
        rw [List.isEmpty_iff, ← List.length_eq_zero_iff] at hp
        omega
      split
      · exact ensures_pure hp'
      · next ha =>
        refine (randNum_le _).bind fun r _ => ?_
        split
        · rw [List.isEmpty_iff, ← List.length_eq_zero_iff] at ha
          exact ensures_pure (by omega)
        · exact ensures_pure hp'
  exact htokens.bind fun tokens hpos => (randNum_index hpos).bind fun r hr => ensures_getElem hr

end DistFuzz.Fuzzer
