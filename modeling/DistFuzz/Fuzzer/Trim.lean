import Mathlib.Logic.Relation
import DistFuzz.Fuzzer.Stages

/-!
# Trimming a seed (Trim.cpp)

`TrimCase` tries to shorten a seed: it executes the seed without one block after the
other, first without large blocks and then without smaller ones. When the checksum of the
trace stays the same the block is deleted for good. A shortened seed is written back to
its file.

- `minPow2`, `writeGapTestcase`, `trimStep`, `trimCase`: the code, for a program under
  test that gives a trace for each input.
- `DeletesBlock`: the abstract step, one block after the first four bytes removed.
- `Trimming`: what holds between any two turns of the loops; `trimStep_triple`: a turn
  keeps it and gets closer to the end.
- `trimCase_preserves`: trimming ends, with blocks deleted and the checksum as before, and
  the file holds the result.
-/

namespace DistFuzz.Fuzzer

open DistFuzz.Lib

/-! ## The code -/

/-- `while (len > ret) ret <<= 1;` -/
def minPow2Loop : (fuel : Nat) → (len ret : UInt64) → Option UInt64
  | 0, _, _ => none
  | fuel + 1, len, ret => if len > ret then minPow2Loop fuel len (ret <<< 1) else some ret

/-- `min_pow2`. The shift runs out of its 64 bits and the loop goes on forever for what is
above `2^63`. -/
def minPow2 (len : UInt64) : Option UInt64 := minPow2Loop 65 len 1

/-- What `WriteGapTestcase` writes to the test file. -/
def writeGapTestcase (mem : Block) (len skipAt skipLen : UInt32) : Option (List UInt8) := do
  let tail := len - skipAt - skipLen
  let head ← (if skipAt ≠ 0 then mem.read 0 skipAt.toNat else some [])
  let rest ← (if skipLen ≠ 0 then mem.read (skipAt.toNat + skipLen.toNat) tail.toNat else some [])
  return head ++ rest

/-- `TRIM_MIN_BYTES`. -/
def trimMinBytes : UInt64 := 4

/-- `TRIM_START_STEP`. -/
def trimStartStep : UInt64 := 16

/-- `TRIM_END_STEP`. -/
def trimEndStep : UInt64 := 1024

/-- The buffer and the locals of `TrimCase`. `trimTrace` is there when
`should_be_write` is set; `written` is what the seed file was overwritten with, and
`updated` the trace that `UpdateQueueTop` gets. -/
structure TrimState (τ : Type) where
  inBuf : Block
  fileLen : UInt64
  minPow2OfFileSize : UInt64
  trimTrace : Option τ
  written : Option (List UInt8)
  updated : Option τ

/-- Before the call. -/
def TrimState.start {τ : Type} (seed : Block) : TrimState τ :=
  ⟨seed, seedLen seed, 0, none, none, none⟩

section Code

variable {τ : Type} (exec : List UInt8 → τ) (hash : τ → UInt32) (cksum : UInt32)

/-- The block is deleted for good. -/
def acceptGap (trimPos trimAvailSize : UInt64) (trace : τ) : Prog Halt (TrimState τ) Unit := do
  let pow2 ← access .running fun s => minPow2 (s.fileLen - trimAvailSize)
  update .fault fun s => do
    let moveTail := (s.fileLen - trimPos - trimAvailSize).toUInt32
    let inBuf ← s.inBuf.memcpy trimPos.toNat s.inBuf (trimPos + trimAvailSize).toNat moveTail.toNat
    return { s with
      inBuf := inBuf
      fileLen := s.fileLen - trimAvailSize
      minPow2OfFileSize := pow2
      trimTrace := s.trimTrace <|> some trace }

/-- One turn of the inner loop: the seed is executed without the block at `trimPos`. It
returns the next `trim_pos`. -/
def trimStep (trimSize trimPos : UInt64) : Prog Halt (TrimState τ) UInt64 := do
  let trimAvailSize ← access .fault fun s => some (min trimSize (s.fileLen - trimPos))
  let case ← access .fault fun s =>
    writeGapTestcase s.inBuf s.fileLen.toUInt32 trimPos.toUInt32 trimAvailSize.toUInt32
  if hash (exec case) = cksum then
    acceptGap trimPos trimAvailSize (exec case)
    return trimPos
  else return trimPos + trimSize

/-- One turn of the outer loop. It returns the next `trim_size`. -/
def trimRound (fuel : Nat) (trimSize : UInt64) : Prog Halt (TrimState τ) UInt64 := do
  let _ ← whileLoop .running (fun trimPos s => decide (trimPos < s.fileLen))
    (trimStep exec hash cksum trimSize) fuel trimSize
  return trimSize >>> 1

/-- The end of `TrimCase`. -/
def writeBack : Prog Halt (TrimState τ) Unit := update .fault fun s =>
  match s.trimTrace with
  | none => some s
  | some trace => (s.inBuf.read 0 s.fileLen.toNat).map fun bytes =>
      { s with written := some bytes, updated := some trace }

/-- `TrimCase`, with less than `fuel` turns for each loop. `ExecuteCase` never returns
`FAULT_ERROR`. -/
def trimCase (fuel : Nat) : Prog Halt (TrimState τ) Unit := do
  let fileLen ← access .fault fun s => some s.fileLen
  if fileLen < 5 then return
  else
    let pow2 ← access .running fun _ => minPow2 fileLen
    update .fault fun s => some { s with minPow2OfFileSize := pow2 }
    let _ ← whileLoop .running
      (fun trimSize s => decide (max (s.minPow2OfFileSize / trimEndStep) trimMinBytes ≤ trimSize))
      (trimRound exec hash cksum fuel) fuel (max (pow2 / trimStartStep) trimMinBytes)
    writeBack

end Code

/-! ## Blocks deleted -/

/-- A byte string without the `n` bytes from `p` on. -/
def gap (l : List UInt8) (p n : Nat) : List UInt8 := l.take p ++ l.drop (p + n)

/-- One block is deleted, not one of the first four bytes. -/
def DeletesBlock (l l' : List UInt8) : Prop :=
  ∃ p n, 4 ≤ p ∧ 0 < n ∧ p + n ≤ l.length ∧ l' = gap l p n

theorem gap_sublist (l : List UInt8) (p n : Nat) : (gap l p n).Sublist l := by
  have hsub : (l.drop (p + n)).Sublist (l.drop p) := by
    rw [← List.drop_drop]
    exact List.drop_sublist _ _
  calc (gap l p n).Sublist (l.take p ++ l.drop p) := (List.Sublist.refl _).append hsub
    _ = l := List.take_append_drop p l

theorem take_gap {l : List UInt8} {p n k : Nat} (hk : k ≤ p) (h : p ≤ l.length) :
    (gap l p n).take k = l.take k := by
  rw [gap, List.take_append_of_le_length (by rw [List.length_take]; omega), List.take_take,
    Nat.min_eq_left hk]

/-- Deleting blocks leaves a part of the string, with its first four bytes. -/
theorem deletes_spec {l l' : List UInt8} (h : Relation.ReflTransGen DeletesBlock l l') :
    l'.Sublist l ∧ l'.take 4 = l.take 4 := by
  induction h with
  | refl => exact ⟨List.Sublist.refl _, rfl⟩
  | tail _ hstep ih =>
    obtain ⟨p, n, hp, -, hfit, rfl⟩ := hstep
    refine ⟨(gap_sublist _ p n).trans ih.1, ?_⟩
    rw [take_gap hp (by omega), ih.2]

/-! ## Loads and stores -/

theorem minPow2Loop_isSome {len : UInt64} (hlen : len.toNat ≤ 2 ^ 63) {j fuel : Nat} {ret : UInt64}
    (hj : j ≤ 63) (hret : ret.toNat = 2 ^ (63 - j)) (hfuel : j < fuel) :
    ∃ r, minPow2Loop fuel len ret = some r := by
  -- over how often `ret` can still be doubled before it reaches `2^63`
  induction j generalizing fuel ret with
  | zero =>
    obtain ⟨fuel, rfl⟩ := Nat.exists_eq_add_of_lt hfuel
    have hle : ¬len > ret := by
      rw [gt_iff_lt, UInt64.lt_iff_toNat_lt, hret]
      omega
    exact ⟨ret, if_neg hle⟩
  | succ j ih =>
    obtain ⟨fuel, rfl⟩ := Nat.exists_eq_add_of_lt (Nat.lt_of_le_of_lt (Nat.zero_le _) hfuel)
    rw [Nat.zero_add, minPow2Loop]
    split
    · have hdouble : (ret <<< 1).toNat = 2 ^ (63 - j) := by
        have hlt : 2 ^ (63 - j) < 2 ^ 64 := Nat.pow_lt_pow_right (by decide) (by omega)
        rw [UInt64.toNat_shiftLeft, show (1 : UInt64).toNat % 64 = 1 from rfl,
          Nat.shiftLeft_eq, hret, ← Nat.pow_add, show 63 - (j + 1) + 1 = 63 - j by omega,
          Nat.mod_eq_of_lt hlt]
      exact ih (by omega) hdouble (by omega)
    · exact ⟨ret, rfl⟩

theorem minPow2_isSome {len : UInt64} (hlen : len.toNat ≤ 2 ^ 63) : ∃ r, minPow2 len = some r :=
  minPow2Loop_isSome hlen (Nat.le_refl 63) rfl (by decide)

/-- The test case is the seed with a gap. -/
theorem writeGapTestcase_eq {mem : Block} {len skipAt skipLen : UInt32}
    (hlen : len.toNat ≤ mem.size) (hat : 0 < skipAt.toNat) (hskip : 0 < skipLen.toNat)
    (hfit : skipAt.toNat + skipLen.toNat ≤ len.toNat) :
    writeGapTestcase mem len skipAt skipLen
      = some (gap (mem.bytes.take len.toNat) skipAt.toNat skipLen.toNat) := by
  -- none of the differences wraps
  have htail : (len - skipAt - skipLen).toNat = len.toNat - (skipAt.toNat + skipLen.toNat) := by
    have hle : skipAt ≤ len := by
      rw [UInt32.le_iff_toNat_le]
      omega
    have hle' : skipLen ≤ len - skipAt := by
      rw [UInt32.le_iff_toNat_le, UInt32.toNat_sub_of_le _ _ hle]
      omega
    rw [UInt32.toNat_sub_of_le _ _ hle', UInt32.toNat_sub_of_le _ _ hle]
    omega
  have hat' : skipAt ≠ 0 := by
    rintro rfl
    exact absurd hat (by decide)
  have hskip' : skipLen ≠ 0 := by
    rintro rfl
    exact absurd hskip (by decide)
  -- both parts are written, the bytes before the gap and those behind it
  rw [writeGapTestcase, if_pos hat', if_pos hskip', htail, Block.read_front (by omega),
    Block.read_eq (by omega), ← List.drop_take]
  show some (mem.bytes.take skipAt.toNat ++ _) = _
  rw [gap, List.take_take, Nat.min_eq_left (by omega)]

/-! ## The loops -/

section Loops

variable {τ : Type} (exec : List UInt8 → τ) (hash : τ → UInt32) (cksum : UInt32) (seed : Block)

/-- `inBuf[0..fileLen)`. -/
def TrimState.kept (s : TrimState τ) : List UInt8 := s.inBuf.bytes.take s.fileLen.toNat

/-- **Between two turns**: blocks were deleted from the seed, and what is left gives the
seed's checksum. `trimTrace` tells whether there was one. -/
structure Trimming (s : TrimState τ) : Prop where
  size_eq : s.inBuf.size = seed.size
  len_le : s.fileLen.toNat ≤ seed.size
  reached : Relation.ReflTransGen DeletesBlock seed.bytes s.kept
  same : hash (exec s.kept) = cksum
  trace : s.trimTrace = none ∧ s.inBuf = seed ∧ s.fileLen = seedLen seed ∨
    s.trimTrace ≠ none ∧ s.fileLen.toNat < seed.size
  unwritten : s.written = none

variable {exec hash cksum seed}

theorem Trimming.length_kept {s : TrimState τ} (h : Trimming exec hash cksum seed s) :
    s.kept.length = s.fileLen.toNat := by
  rw [TrimState.kept, List.length_take, ← Block.size, h.size_eq, Nat.min_eq_left h.len_le]

/-- Where the block is moved away, what was executed is kept. -/
theorem exists_moved {b : Block} {L p n : Nat} (hL : L ≤ b.size) (hfit : p + n ≤ L) :
    ∃ b', b.memcpy p b (p + n) (L - (p + n)) = some b' ∧ b'.size = b.size ∧
      b'.bytes.take (L - n) = gap (b.bytes.take L) p n := by
  have hlen : ((b.bytes.drop (p + n)).take (L - (p + n))).length = L - (p + n) := by
    rw [List.length_take, List.length_drop, ← Block.size]
    omega
  have hp : p ≤ b.bytes.length := by
    rw [← Block.size]
    omega
  obtain ⟨b', hmove, hbytes⟩ := Block.memcpy_eq (show p + (L - (p + n)) ≤ b.size by omega)
    (show p + n + (L - (p + n)) ≤ b.size by omega)
  refine ⟨b', hmove, ?_, ?_⟩
  · rw [Block.size, hbytes, length_overwrite (by rw [hlen, ← Block.size]; omega), ← Block.size]
  -- what was moved now ends where the shorter file ends
  · have hend := take_overwrite_end hp ((b.bytes.drop (p + n)).take (L - (p + n)))
    rw [hlen, ← hbytes, show p + (L - (p + n)) = L - n by omega, ← List.drop_take] at hend
    rw [hend, gap, List.take_take, Nat.min_eq_left (by omega)]

theorem acceptGap_triple {trimPos avail : UInt64} {s₀ : TrimState τ} {trace : τ}
    (hs₀ : Trimming exec hash cksum seed s₀) (hsmall : seed.size < 2 ^ 31)
    (hpos : 4 ≤ trimPos.toNat) (havail : 0 < avail.toNat)
    (hfit : trimPos.toNat + avail.toNat ≤ s₀.fileLen.toNat)
    (hsame : hash (exec (gap s₀.kept trimPos.toNat avail.toNat)) = cksum) :
    Triple (fun s => s = s₀) (acceptGap trimPos avail trace)
      (fun _ s => Trimming exec hash cksum seed s ∧
        s.fileLen.toNat = s₀.fileLen.toNat - avail.toNat) fun _ _ => False := by
  have hle := hs₀.len_le
  have hnew : (s₀.fileLen - avail).toNat = s₀.fileLen.toNat - avail.toNat :=
    UInt64.toNat_sub_of_le _ _ (by rw [UInt64.le_iff_toNat_le]; omega)
  have hsum : (trimPos + avail).toNat = trimPos.toNat + avail.toNat := by
    rw [UInt64.toNat_add, Nat.mod_eq_of_lt (by omega)]
  -- the length of the tail goes through a `u32`, which holds it
  have htail : (s₀.fileLen - trimPos - avail).toUInt32.toNat
      = s₀.fileLen.toNat - (trimPos.toNat + avail.toNat) := by
    have hsub : (s₀.fileLen - trimPos).toNat = s₀.fileLen.toNat - trimPos.toNat :=
      UInt64.toNat_sub_of_le _ _ (by rw [UInt64.le_iff_toNat_le]; omega)
    rw [UInt64.toNat_toUInt32, UInt64.toNat_sub_of_le _ _
      (by rw [UInt64.le_iff_toNat_le, hsub]; omega), hsub, Nat.mod_eq_of_lt (by omega)]
    omega
  obtain ⟨b, hmove, hsize, hkept⟩ := exists_moved (hs₀.size_eq ▸ hle) hfit
  obtain ⟨pow2, hpow2⟩ := minPow2_isSome (show (s₀.fileLen - avail).toNat ≤ 2 ^ 63 by omega)
  have hread : Triple (fun s => s = s₀)
      (access Halt.running fun s => minPow2 (s.fileLen - avail)) (fun _ s => s = s₀)
      fun _ _ => False := by
    refine triple_access ?_
    rintro s rfl
    exact ⟨pow2, hpow2, rfl⟩
  refine hread.bind fun pow2 => triple_update ?_
  rintro s rfl
  have hkept' : b.bytes.take (s.fileLen - avail).toNat
      = gap s.kept trimPos.toNat avail.toNat := by
    rw [hnew]
    exact hkept
  dsimp only
  rw [hsum, htail, hmove]
  refine ⟨_, rfl, ⟨hsize.trans hs₀.size_eq, ?_, ?_, ?_, .inr ⟨?_, ?_⟩, hs₀.unwritten⟩, hnew⟩
  · show (s.fileLen - avail).toNat ≤ seed.size
    omega
  -- one more deletion, which is not at the first four bytes
  · exact hs₀.reached.tail ⟨_, _, hpos, havail, by rwa [hs₀.length_kept], hkept'⟩
  · show hash (exec (b.bytes.take (s.fileLen - avail).toNat)) = cksum
    rw [hkept', hsame]
  -- the trace of the first accepted gap is kept
  · show (s.trimTrace <|> some trace) ≠ none
    cases s.trimTrace with
    | none => exact Option.some_ne_none _
    | some _ => exact Option.some_ne_none _
  · show (s.fileLen - avail).toNat < seed.size
    omega

theorem toNat_min (x y : UInt64) : (min x y).toNat = min x.toNat y.toNat := by
  show (if x ≤ y then x else y).toNat = _
  split
  · next h =>
    rw [UInt64.le_iff_toNat_le] at h
    rw [Nat.min_eq_left h]
  · next h =>
    rw [UInt64.le_iff_toNat_le] at h
    rw [Nat.min_eq_right (by omega)]

/-- The case that is executed, for lengths that 32 bits hold. -/
theorem Trimming.writeGap {s : TrimState τ} (hs : Trimming exec hash cksum seed s)
    (hsmall : seed.size < 2 ^ 31) {trimPos avail : UInt64} (hpos : 0 < trimPos.toNat)
    (havail : 0 < avail.toNat) (hfit : trimPos.toNat + avail.toNat ≤ s.fileLen.toNat) :
    writeGapTestcase s.inBuf s.fileLen.toUInt32 trimPos.toUInt32 avail.toUInt32
      = some (gap s.kept trimPos.toNat avail.toNat) := by
  have hle := hs.len_le
  -- the three lengths are `u32` in `WriteGapTestcase`
  have hcut : ∀ x : UInt64, x.toNat < 2 ^ 31 → x.toUInt32.toNat = x.toNat := by
    intro x hx
    rw [UInt64.toNat_toUInt32, Nat.mod_eq_of_lt (by omega)]
  have hlen := hcut s.fileLen (by omega)
  have hat := hcut trimPos (by omega)
  have hskip := hcut avail (by omega)
  rw [writeGapTestcase_eq, hlen, hat, hskip]
  · rfl
  · rw [hlen, hs.size_eq]
    exact hle
  · rwa [hat]
  · rwa [hskip]
  · rwa [hat, hskip, hlen]

/-- **One turn** keeps the invariant and gets closer to the end: the file gets shorter or
the position moves on. -/
theorem trimStep_triple {trimSize trimPos : UInt64} (hsmall : seed.size < 2 ^ 31) (n : Nat) :
    Triple (fun s => (Trimming exec hash cksum seed s ∧ 4 ≤ trimSize.toNat ∧
        trimSize.toNat ≤ trimPos.toNat) ∧ decide (trimPos < s.fileLen) = true ∧
        s.fileLen.toNat - trimPos.toNat = n)
      (trimStep exec hash cksum trimSize trimPos)
      (fun p s => (Trimming exec hash cksum seed s ∧ 4 ≤ trimSize.toNat ∧
        trimSize.toNat ≤ p.toNat) ∧ s.fileLen.toNat - p.toNat < n) fun _ _ => False := by
  rintro s ⟨⟨hs, hsize, hpos⟩, hlt, rfl⟩
  rw [decide_eq_true_iff, UInt64.lt_iff_toNat_lt] at hlt
  have hle := hs.len_le
  have hrest : (s.fileLen - trimPos).toNat = s.fileLen.toNat - trimPos.toNat :=
    UInt64.toNat_sub_of_le _ _ (by rw [UInt64.le_iff_toNat_le]; omega)
  -- the last block of a file may be shorter than `trimSize`
  generalize havail : min trimSize (s.fileLen - trimPos) = avail
  have htoNat : avail.toNat = min trimSize.toNat (s.fileLen.toNat - trimPos.toNat) := by
    rw [← havail, toNat_min, hrest]
  have hsize' : Triple (fun s' => s' = s)
      (access Halt.fault fun s => some (min trimSize (s.fileLen - trimPos)))
      (fun a s' => a = avail ∧ s' = s) fun _ _ => False := by
    refine triple_access ?_
    rintro s' rfl
    exact ⟨_, rfl, havail, rfl⟩
  have hwrite : Triple (fun s' => s' = s)
      (access Halt.fault fun s => writeGapTestcase s.inBuf s.fileLen.toUInt32 trimPos.toUInt32
        avail.toUInt32)
      (fun case s' => case = gap s.kept trimPos.toNat avail.toNat ∧ s' = s) fun _ _ => False := by
    refine triple_access ?_
    rintro s' rfl
    exact ⟨_, hs.writeGap hsmall (by omega) (by omega) (by omega), rfl, rfl⟩
  refine (hsize'.bind fun a => ?_) s rfl
  rintro s' ⟨rfl, rfl⟩
  refine (hwrite.bind fun case => ?_) s' rfl
  rintro s ⟨rfl, rfl⟩
  -- either the file gets shorter, at the same position, or the position moves on
  by_cases hsame : hash (exec (gap s.kept trimPos.toNat a.toNat)) = cksum
  · rw [if_pos hsame]
    refine ((acceptGap_triple hs hsmall (by omega) (by omega) (by omega) hsame).bind fun _ =>
      triple_pure ?_) s rfl
    rintro s' ⟨hs', hlen⟩
    exact ⟨⟨hs', hsize, hpos⟩, by omega⟩
  · rw [if_neg hsame]
    have hnext : (trimPos + trimSize).toNat = trimPos.toNat + trimSize.toNat := by
      rw [UInt64.toNat_add, Nat.mod_eq_of_lt (by omega)]
    exact ⟨⟨hs, hsize, by omega⟩, by omega⟩

theorem trimRound_triple {trimSize : UInt64} (hsmall : seed.size < 2 ^ 31) {fuel : Nat}
    (hfuel : seed.size < fuel) :
    Triple (fun s => Trimming exec hash cksum seed s ∧ 4 ≤ trimSize.toNat)
      (trimRound exec hash cksum fuel trimSize)
      (fun t s => Trimming exec hash cksum seed s ∧ t.toNat = trimSize.toNat / 2)
      fun _ _ => False := by
  have hhalf : (trimSize >>> 1).toNat = trimSize.toNat / 2 := by
    rw [UInt64.toNat_shiftRight]
    exact Nat.shiftRight_one _
  -- what is left behind the position is the measure of the loop
  have hloop := triple_while Halt.running
    (fun p s => Trimming exec hash cksum seed s ∧ 4 ≤ trimSize.toNat ∧ trimSize.toNat ≤ p.toNat)
    (fun p s => s.fileLen.toNat - p.toNat) (fun p n => trimStep_triple hsmall n) fuel trimSize
  refine (hloop.mono (fun s hs => ⟨⟨hs.1, hs.2, Nat.le_refl _⟩, ?_⟩) (fun _ s hs => hs.1.1)
    fun _ _ h => h).bind fun _ => triple_pure fun s hs => ⟨hs, hhalf⟩
  have hle := hs.1.len_le
  omega

theorem toNat_le_of_max_le {x y z : UInt64} (h : max x y ≤ z) : y.toNat ≤ z.toNat := by
  change (if x ≤ y then y else x) ≤ z at h
  split at h
  · rwa [UInt64.le_iff_toNat_le] at h
  · next hxy =>
    rw [UInt64.le_iff_toNat_le] at h hxy
    omega

theorem trimRounds_triple (hsmall : seed.size < 2 ^ 31) {fuel : Nat} (hfuel : 2 ^ 64 ≤ fuel)
    (trimSize : UInt64) :
    Triple (Trimming exec hash cksum seed)
      (whileLoop Halt.running
        (fun trimSize s => decide (max (s.minPow2OfFileSize / trimEndStep) trimMinBytes ≤ trimSize))
        (trimRound exec hash cksum fuel) fuel trimSize)
      (fun _ => Trimming exec hash cksum seed) fun _ _ => False := by
  have hturn : ∀ (t : UInt64) n, Triple (fun s : TrimState τ => Trimming exec hash cksum seed s ∧
        decide (max (s.minPow2OfFileSize / trimEndStep) trimMinBytes ≤ t) = true ∧ t.toNat = n)
      (trimRound exec hash cksum fuel t)
      (fun t s => Trimming exec hash cksum seed s ∧ t.toNat < n) fun _ _ => False := by
    rintro t n s ⟨hs, hcond, rfl⟩
    -- the loop condition keeps `trimSize` at four bytes or more, so a block is never empty
    have hfour : 4 ≤ t.toNat := toNat_le_of_max_le (decide_eq_true_iff.mp hcond)
    exact ((trimRound_triple hsmall (by omega)).mono (fun s hs => hs)
      (fun t' s hs => ⟨hs.1, by omega⟩) fun _ _ h => h) s ⟨hs, hfour⟩
  -- `trimSize` is halved in each round
  have hloop := triple_while Halt.running (fun _ => Trimming exec hash cksum seed)
    (fun t _ => t.toNat) hturn fuel trimSize
  exact hloop.mono (fun s hs => ⟨hs, Nat.lt_of_lt_of_le (UInt64.toNat_lt _) hfuel⟩)
    (fun _ s hs => hs.1) fun _ _ h => h

/-- What `TrimCase` leaves behind: a part of the seed with the same checksum, in the buffer and,
if a block was deleted, in the file. -/
structure Trimmed (exec : List UInt8 → τ) (hash : τ → UInt32) (cksum : UInt32) (seed : Block)
    (s : TrimState τ) : Prop where
  reached : Relation.ReflTransGen DeletesBlock seed.bytes s.kept
  sublist : s.kept.Sublist seed.bytes
  first : s.kept.take 4 = seed.bytes.take 4
  same : hash (exec s.kept) = cksum
  deleted : s.kept ≠ seed.bytes → s.written = some s.kept
  unchanged : s.kept = seed.bytes → s.inBuf = seed ∧ s.fileLen = seedLen seed ∧ s.written = none

theorem writeBack_triple :
    Triple (Trimming exec hash cksum seed) writeBack
      (fun _ => Trimmed exec hash cksum seed) fun _ _ => False := by
  refine triple_update fun s hs => ?_
  obtain ⟨hsub, hfirst⟩ := deletes_spec hs.reached
  rcases hs.trace with ⟨hnone, hbuf, hlen⟩ | ⟨hsome, hshort⟩
  -- no gap was accepted: nothing is written
  · have hkept : s.kept = seed.bytes := by
      rw [TrimState.kept, hbuf, hlen, toNat_seedLen]
      exact List.take_length
    refine ⟨s, by rw [hnone], hs.reached, hsub, hfirst, hs.same, fun h => absurd hkept h, fun _ =>
      ⟨hbuf, hlen, hs.unwritten⟩⟩
  · obtain ⟨trace, htrace⟩ := Option.ne_none_iff_exists'.mp hsome
    have hread : s.inBuf.read 0 s.fileLen.toNat = some s.kept :=
      Block.read_front (hs.size_eq ▸ hs.len_le)
    refine ⟨{ s with written := some s.kept, updated := some trace }, ?_, hs.reached, hsub, hfirst,
      hs.same, fun _ => rfl, fun h => ?_⟩
    · rw [htrace]
      dsimp only
      rw [hread, Option.map_some]
    -- a file that lost a block is not the seed
    · have hlen := hs.length_kept
      change s.kept = seed.bytes at h
      rw [h] at hlen
      change seed.size = _ at hlen
      omega

end Loops

/-- **Trimming preserves behaviour**: for every program under test whose trace of the seed
has the checksum of the queue entry, `TrimCase` ends, and what it keeps has that checksum
too, is the seed with blocks deleted and is in the file if there were any. -/
theorem trimCase_preserves {τ : Type} (exec : List UInt8 → τ) (hash : τ → UInt32) (seed : Block)
    (hlong : 5 ≤ seed.size) (hsmall : seed.size < 2 ^ 31) (cksum : UInt32)
    (hcksum : hash (exec seed.bytes) = cksum) (fuel : Nat) (hfuel : 2 ^ 64 ≤ fuel) :
    ∃ s, (trimCase exec hash cksum fuel).exec (.start seed) = (.ok (), s) ∧
      Trimmed exec hash cksum seed s := by
  have hlen : (seedLen seed).toNat = seed.size := toNat_seedLen seed
  have hkept : (TrimState.start seed : TrimState τ).kept = seed.bytes := by
    rw [TrimState.kept, TrimState.start, hlen]
    exact List.take_length
  have hguard : ¬seedLen seed < 5 := by
    rw [UInt64.lt_iff_toNat_lt, hlen]
    exact Nat.not_lt.mpr hlong
  obtain ⟨pow2, hpow2⟩ := minPow2_isSome (show (seedLen seed).toNat ≤ 2 ^ 63 by omega)
  have hread : Triple (fun s : TrimState τ => s = .start seed)
      (access Halt.fault fun s => some s.fileLen)
      (fun fileLen s => fileLen = seedLen seed ∧ s = .start seed) fun _ _ => False := by
    refine triple_access ?_
    rintro s rfl
    exact ⟨_, rfl, rfl, rfl⟩
  have hrun : Triple (fun s => s = .start seed) (trimCase exec hash cksum fuel)
      (fun _ => Trimmed exec hash cksum seed) fun _ _ => False := by
    refine hread.bind fun fileLen => ?_
    refine Triple.given fun hfileLen => ?_
    subst hfileLen
    rw [if_neg hguard]
    -- the lengths are read, the rounds are made, and the file is written if there is a trace
    refine (triple_access (Q := fun _ s => s = .start seed) fun s hs => ⟨pow2, hpow2, hs⟩).bind
      fun pow2 => (triple_update (R := fun _ => Trimming exec hash cksum seed) ?_).bind fun _ =>
        (trimRounds_triple hsmall hfuel _).bind fun _ => writeBack_triple
    rintro s rfl
    exact ⟨_, rfl, rfl, Nat.le_of_eq hlen, hkept ▸ .refl, by rw [← hcksum, ← hkept]; rfl,
      .inl ⟨rfl, rfl, rfl⟩, rfl⟩
  obtain ⟨⟨⟩, s, hs⟩ := hrun.returns rfl
  exact ⟨s, hs⟩

def nineZeros : Block := ⟨List.replicate 9 0, by decide⟩

/-- A program that only looks at the first four bytes. -/
theorem trimCase_preserves_nine :
    5 ≤ nineZeros.size ∧
      ∃ s, (trimCase (List.take 4) (fun trace => trace.length.toUInt32) 4 (2 ^ 64)).exec
          (.start nineZeros) = (.ok (), s) ∧
        Trimmed (List.take 4) (fun trace => trace.length.toUInt32) 4 nineZeros s :=
  ⟨by decide, trimCase_preserves _ _ _ (by decide) (by decide) 4 (by decide) (2 ^ 64)
    (Nat.le_refl _)⟩

end DistFuzz.Fuzzer
