import Mathlib.Data.BitVec
import Mathlib.Data.Fintype.EquivFin
import Mathlib.SetTheory.Cardinal.Finite

/-!
# Mixing steps of a hash

A hash of the multiply-rotate family is a chain of steps on a word, none of which loses
anything: a product with an odd constant, a rotation, a sum, an exclusive or, and an
exclusive or of a word with its own upper half. What it loses, it loses at its end, where the
word is cut.

- `injective_mul`, `injective_rotateLeft`, `injective_xorShift`: the steps.
- `card_setWidth`: how many inputs of a chain of such steps end in one result after the cut.
-/

namespace DistFuzz.Lib

variable {w : Nat}

/-- A product with a constant that has an inverse. -/
theorem injective_mul {c d : BitVec w} (h : c * d = 1#w) : Function.Injective (· * c) := by
  intro x y hxy
  have hcancel : x * c * d = y * c * d := congrArg (· * d) hxy
  rwa [BitVec.mul_assoc, BitVec.mul_assoc, h, BitVec.mul_one, BitVec.mul_one] at hcancel

theorem injective_xor (c : BitVec w) : Function.Injective (c ^^^ ·) :=
  fun _ _ h => (BitVec.xor_right_inj c).mp h

/-- Every bit of the word is found again after a rotation. -/
theorem injective_rotateLeft (r : Nat) :
    Function.Injective fun x : BitVec w => x.rotateLeft r := by
  intro x y hxy
  have hxy : x.rotateLeft r = y.rotateLeft r := hxy
  refine BitVec.eq_of_getLsbD_eq fun i hi => ?_
  have hr : r % w < w := Nat.mod_lt _ (by omega)
  by_cases hlow : i + r % w < w
  · have hbit := congrArg (·.getLsbD (i + r % w)) hxy
    simp only [BitVec.getLsbD_rotateLeft] at hbit
    simpa [hlow] using hbit
  · have hbit := congrArg (·.getLsbD (i + r % w - w)) hxy
    simp only [BitVec.getLsbD_rotateLeft] at hbit
    have hwrap : i + r % w - w < r % w := by omega
    have hback : w - r % w + (i + r % w - w) = i := by omega
    simpa [hwrap, hback] using hbit

/-- A shift by half the width or more: done twice, the step undoes itself. -/
theorem injective_xorShift {s : Nat} (hs : w ≤ 2 * s) :
    Function.Injective fun x : BitVec w => x ^^^ x >>> s := by
  have hself : ∀ x : BitVec w, (x ^^^ x >>> s) ^^^ (x ^^^ x >>> s) >>> s = x := by
    intro x
    have hgone : x >>> (s + s) = 0#w := by
      rw [BitVec.ushiftRight_eq_zero]
      omega
    rw [BitVec.ushiftRight_xor_distrib, ← BitVec.shiftRight_add, hgone, BitVec.xor_zero,
      BitVec.xor_assoc, BitVec.xor_self, BitVec.xor_zero]
  intro x y hxy
  have hxy : x ^^^ x >>> s = y ^^^ y >>> s := hxy
  rw [← hself x, ← hself y, hxy]

theorem finite_bitVec (w : Nat) : Finite (BitVec w) :=
  Finite.of_equiv _ (BitVec.equivFin (m := w)).toEquiv.symm

theorem card_bitVec (w : Nat) : Nat.card (BitVec w) = 2 ^ w := by
  rw [Nat.card_congr (BitVec.equivFin (m := w)).toEquiv, Nat.card_fin]

/-- The words that end in `c`, by what stands before it. -/
def endingIn {a b : Nat} (c : BitVec b) : {x : BitVec (a + b) // x.setWidth b = c} ≃ BitVec a where
  toFun x := x.1.extractLsb' b a
  invFun y := ⟨y ++ c, by
    refine BitVec.eq_of_getLsbD_eq fun i hi => ?_
    simp [BitVec.getLsbD_append, hi]⟩
  left_inv x := by
    obtain ⟨x, rfl⟩ := x
    refine Subtype.ext (BitVec.eq_of_getLsbD_eq fun i hi => ?_)
    by_cases hlow : i < b
    · simp [BitVec.getLsbD_append, hlow]
    · have hhigh : i - b < a := by omega
      simp [BitVec.getLsbD_append, hlow, hhigh, Nat.add_sub_cancel' (Nat.le_of_not_lt hlow)]
  right_inv y := by
    refine BitVec.eq_of_getLsbD_eq fun i hi => ?_
    simp [BitVec.getLsbD_append, hi]

/-- After the cut, every result is that of the same number of inputs. -/
theorem card_setWidth {a b : Nat} {f : BitVec (a + b) → BitVec (a + b)}
    (hf : Function.Injective f) (c : BitVec b) :
    Nat.card {x // (f x).setWidth b = c} = 2 ^ a := by
  have := finite_bitVec (a + b)
  have hbij : Function.Bijective f := Finite.injective_iff_bijective.mp hf
  have hequiv : {x // (f x).setWidth b = c} ≃ {y : BitVec (a + b) // y.setWidth b = c} :=
    (Equiv.ofBijective f hbij).subtypeEquiv fun _ => Iff.rfl
  rw [Nat.card_congr (hequiv.trans (endingIn c)), card_bitVec]

end DistFuzz.Lib
