import DistFuzz.Fuzzer.Arithmetic

/-!
# Interesting values (FuzzOne.cpp:112–227, 558–644)

`InterestingReplace8`, `InterestingReplace16` and `InterestingReplace32` store boundary
values of the integer types at every position. What an earlier stage did already is left
out, as far as `could_be_bitflip`, `could_be_arith` and `could_be_interest` see it.

- `couldBeArith`, `couldBeInterest`: the predicates.
- `interestingReplace8`, `interestingReplace16`, `interestingReplace32`: the stages.
- `interest8Tries_ne`, `interest16Tries_ne`, `interest32Tries_ne`: what they store is not what
  stood there.
-/

namespace DistFuzz.Fuzzer

open DistFuzz.Lib

/-! ## What an earlier stage could have done -/

/-- How many of the first `n` pieces of `w` bits differ, and the last ones that do. -/
def lastDiff (w n : Nat) (oldVal newVal : BitVec 32) : Nat × BitVec w × BitVec w :=
  (List.range n).foldl (fun (diffs, ov, nv) i =>
    let a := (oldVal >>> (w * i)).setWidth w
    let b := (newVal >>> (w * i)).setWidth w
    if a ≠ b then (diffs + 1, a, b) else (diffs, ov, nv)) (0, 0, 0)

/-- The values are no more than `ARITH_MAX` apart. -/
def withinArith {w : Nat} (ov nv : BitVec w) : Bool :=
  (ov - nv).toNat ≤ arithMax.toNat ∨ (nv - ov).toNat ≤ arithMax.toNat

/-- `could_be_arith`. -/
def couldBeArith (oldVal newVal : BitVec 32) (blen : Nat) : Bool :=
  if oldVal = newVal then true
  else
    let (diffs, ov, nv) := lastDiff 8 blen oldVal newVal
    if diffs = 1 ∧ withinArith ov nv then true
    else if blen = 1 then false
    else
      let (diffs, ov, nv) := lastDiff 16 (blen / 2) oldVal newVal
      if diffs = 1 ∧ (withinArith ov nv ∨ withinArith (swap16 ov) (swap16 nv)) then true
      else blen = 4 ∧ (withinArith oldVal newVal ∨ withinArith (swap32 oldVal) (swap32 newVal))

/-- `(old_val & ~(mask << (i * 8))) | (x << (i * 8))`: a value of `w` bits stored at byte
`i`. -/
def patched {w : Nat} (oldVal : BitVec 32) (i : Nat) (x : BitVec w) : BitVec 32 :=
  (oldVal &&& ~~~((BitVec.allOnes w).setWidth 32 <<< (i * 8))) ||| x.setWidth 32 <<< (i * 8)

/-- `could_be_interest`. -/
def couldBeInterest (oldVal newVal : BitVec 32) (blen : Nat) (checkLe : Bool) : Bool :=
  if oldVal = newVal then true
  else if (List.range blen).any fun i => interesting8.any fun x => newVal = patched oldVal i x then
    true
  else if blen = 2 ∧ checkLe = false then false
  else if (List.range (blen - 1)).any fun i => interesting16.any fun x =>
      newVal = patched oldVal i x ∨ blen > 2 ∧ newVal = patched oldVal i (swap16 x) then true
  else blen = 4 ∧ checkLe = true ∧ newVal ∈ interesting32

/-! ## The stages -/

/-- What `InterestingReplace8` stores to a byte. -/
def interest8Tries (orig : BitVec 8) : List (BitVec 8) :=
  interesting8.filter fun x => !couldBeBitflip ((orig ^^^ x).setWidth 32) &&
    !couldBeArith (orig.setWidth 32) (x.setWidth 32) 1

/-- What `InterestingReplace16` stores to a window. -/
def interest16Tries (orig : BitVec 16) : List (BitVec 16) :=
  interesting16.filter fun x => !couldBeBitflip ((orig ^^^ x).setWidth 32) &&
    !couldBeArith (orig.setWidth 32) (x.setWidth 32) 2 &&
    !couldBeInterest (orig.setWidth 32) (x.setWidth 32) 2 false

/-- What `InterestingReplace32` stores to a window. -/
def interest32Tries (orig : BitVec 32) : List (BitVec 32) :=
  interesting32.filter fun x => !couldBeBitflip (orig ^^^ x) && !couldBeArith orig x 4 &&
    !couldBeInterest orig x 4 false

section Stages

variable (target : Target) (len : UInt64)

/-- `InterestingReplace8`. -/
def interestingReplace8 : Stage Unit := windowStage target 1 interest8Tries len

/-- `InterestingReplace16`. -/
def interestingReplace16 : Stage Unit := windowStage target 2 interest16Tries len

/-- `InterestingReplace32`. -/
def interestingReplace32 : Stage Unit := windowStage target 4 interest32Tries len

end Stages

theorem interest8Tries_ne {orig x : BitVec 8} (h : x ∈ interest8Tries orig) : x ≠ orig := by
  have hflip := (List.mem_filter.mp h).2
  rw [Bool.and_eq_true] at hflip
  exact ne_of_not_bitflip hflip.1

theorem interest16Tries_ne {orig x : BitVec 16} (h : x ∈ interest16Tries orig) : x ≠ orig := by
  have hflip := (List.mem_filter.mp h).2
  rw [Bool.and_eq_true, Bool.and_eq_true] at hflip
  exact ne_of_not_bitflip hflip.1.1

theorem interest32Tries_ne {orig x : BitVec 32} (h : x ∈ interest32Tries orig) : x ≠ orig := by
  have hflip := (List.mem_filter.mp h).2
  rw [Bool.and_eq_true, Bool.and_eq_true] at hflip
  exact ne_of_not_bitflip (by rw [BitVec.setWidth_eq]; exact hflip.1.1)

end DistFuzz.Fuzzer
