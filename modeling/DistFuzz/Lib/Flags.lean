import Mathlib.Data.UInt

/-!
# Flag words

A word of flags and masks over it, as C writes them: `x |= m` sets flags,
`x &= ~m` clears them, `x & b` reads those of `b`.

- `bitAt`: one flag; `flags_ext`: a word is its flags.
- `Keeps`: a write that leaves the flags of `b` alone; `keeps_or`, `keeps_clear`:
  setting and clearing others does.
- `or_and_self`, `clear_and_eq_zero`: flags just set are set, flags just cleared are
  clear.
-/

namespace DistFuzz.Lib

/-- Flag `i` of the word. -/
def bitAt (x : UInt32) (i : Nat) : Bool := x.toBitVec.getLsbD i

theorem flags_ext {x y : UInt32} (h : ∀ i, i < 32 → bitAt x i = bitAt y i) : x = y :=
  UInt32.toBitVec_inj.mp (BitVec.eq_of_getLsbD_eq h)

@[simp] theorem bitAt_and (x y : UInt32) (i : Nat) :
    bitAt (x &&& y) i = (bitAt x i && bitAt y i) := BitVec.getLsbD_and

@[simp] theorem bitAt_or (x y : UInt32) (i : Nat) :
    bitAt (x ||| y) i = (bitAt x i || bitAt y i) := BitVec.getLsbD_or

@[simp] theorem bitAt_zero (i : Nat) : bitAt 0 i = false := BitVec.getLsbD_zero

theorem bitAt_not (x : UInt32) {i : Nat} (hi : i < 32) : bitAt (~~~x) i = !bitAt x i := by
  show (~~~x.toBitVec).getLsbD i = !x.toBitVec.getLsbD i
  rw [BitVec.getLsbD_not, decide_eq_true hi, Bool.true_and]

/-- Two masks share no flag. -/
theorem bitAt_disjoint {m b : UInt32} (h : m &&& b = 0) (i : Nat) :
    bitAt m i = false ∨ bitAt b i = false := by
  rw [← Bool.and_eq_false_iff, ← bitAt_and, h, bitAt_zero]

/-- A mask has all flags of another. -/
theorem bitAt_subset {m b : UInt32} (h : m &&& b = b) (i : Nat) :
    bitAt m i = true ∨ bitAt b i = false := by
  have hi : bitAt (m &&& b) i = bitAt b i := by rw [h]
  rw [bitAt_and] at hi
  cases hm : bitAt m i with
  | true => exact .inl rfl
  | false =>
    rw [hm, Bool.false_and] at hi
    exact .inr hi.symm

/-! ## Writes that leave flags alone -/

/-- Writing `f x` for `x` leaves the flags of `b` alone. -/
def Keeps (b : UInt32) (f : UInt32 → UInt32) : Prop := ∀ x, f x &&& b = x &&& b

theorem keeps_or {b m : UInt32} (h : m &&& b = 0) : Keeps b (· ||| m) := by
  intro x
  refine flags_ext fun i _ => ?_
  rcases bitAt_disjoint h i with hm | hb
  · simp [hm]
  · simp [hb]

theorem keeps_clear {b m : UInt32} (h : m &&& b = 0) : Keeps b (· &&& ~~~m) := by
  intro x
  refine flags_ext fun i hi => ?_
  rcases bitAt_disjoint h i with hm | hb
  · simp [bitAt_not m hi, hm]
  · simp [hb]

theorem Keeps.comp {b : UInt32} {f g : UInt32 → UInt32} (hf : Keeps b f) (hg : Keeps b g) :
    Keeps b fun x => g (f x) :=
  fun x => (hg (f x)).trans (hf x)

theorem Keeps.mono {b c : UInt32} {f : UInt32 → UInt32} (h : Keeps c f) (hbc : c &&& b = b) :
    Keeps b f := by
  intro x
  calc f x &&& b = f x &&& (c &&& b) := by rw [hbc]
    _ = f x &&& c &&& b := (UInt32.and_assoc ..).symm
    _ = x &&& c &&& b := by rw [h x]
    _ = x &&& (c &&& b) := UInt32.and_assoc ..
    _ = x &&& b := by rw [hbc]

/-! ## Masks -/

/-- Masks that share no flag with `m` share none together. -/
theorem or_disjoint {a b m : UInt32} (ha : a &&& m = 0) (hb : b &&& m = 0) :
    (a ||| b) &&& m = 0 :=
  (keeps_or hb a).trans ha

theorem ite_disjoint {p : Prop} [Decidable p] {a m : UInt32} (ha : a &&& m = 0) :
    (if p then a else 0) &&& m = 0 := by
  split
  · exact ha
  · exact UInt32.zero_and

/-- Setting flags that are set already. -/
theorem or_eq_self {x m : UInt32} (h : x &&& m = m) : x ||| m = x := by
  refine flags_ext fun i _ => ?_
  rcases bitAt_subset h i with hx | hm
  · simp [hx]
  · simp [hm]

/-- Flags that were just set are set. -/
theorem or_and_self (x m : UInt32) : (x ||| m) &&& m = m := by
  refine flags_ext fun i _ => ?_
  cases hm : bitAt m i with
  | true => simp [hm]
  | false => simp [hm]

/-- Flags that were just cleared are clear. -/
theorem clear_and_eq_zero {m b : UInt32} (h : m &&& b = b) (x : UInt32) :
    (x &&& ~~~m) &&& b = 0 := by
  refine flags_ext fun i hi => ?_
  rcases bitAt_subset h i with hm | hb
  · simp [bitAt_not m hi, hm]
  · simp [hb]

end DistFuzz.Lib
