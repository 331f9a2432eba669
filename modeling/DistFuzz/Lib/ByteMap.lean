import Mathlib.Data.Nat.Bitwise
import Mathlib.Data.Fintype.Card
import Mathlib.Data.Fintype.Pi

/-!
# Byte arrays read and written a word at a time

A byte array of fixed size, scanned by code that casts the byte pointer to a
pointer to `w`-byte words (`w = 8` or `w = 4` on the usual machines). The
array stays a function on indices; a word access gathers `w` neighbouring
bytes, least significant first, into a bit vector, and a word store scatters
it back.

- `loadBytes w f`: the little-endian word whose byte `j` is `f j`. The bitwise
  operations on words are the bytewise ones (`loadBytes_and`,
  `loadBytes_andNot`), a word is zero iff all its bytes are
  (`loadBytes_eq_zero_iff`), and `byteOf` recovers the bytes.
- `loadWord`/`storeWord`: the same against a `ByteMap`, at word index `k`.
  A store touches only the bytes of its word (`storeWord_of_ne`).
-/

namespace DistFuzz.Lib

/-- A byte array of `n` cells. -/
abbrev ByteMap (n : Nat) := Fin n → UInt8

/-! ## Words as byte sequences -/

/-- The little-endian word of `w` bytes: byte `0` is the least significant. -/
def loadBytes : (w : Nat) → (Nat → UInt8) → BitVec (8 * w)
  | 0, _ => 0#0
  | w + 1, f => loadBytes w (fun j => f (j + 1)) ++ (f 0).toBitVec

/-- Byte `j` of a word. -/
def byteOf {w : Nat} (x : BitVec (8 * w)) (j : Nat) : UInt8 :=
  ⟨x.extractLsb' (8 * j) 8⟩

/-- Bytes are equal when their bits are. -/
theorem byte_ext {a b : UInt8}
    (h : ∀ i, i < 8 → a.toBitVec.getLsbD i = b.toBitVec.getLsbD i) : a = b :=
  UInt8.toBitVec_inj.mp (BitVec.eq_of_getLsbD_eq h)

@[simp] theorem getLsbD_zero_byte (i : Nat) : (0 : UInt8).toBitVec.getLsbD i = false := by
  show (0#8).getLsbD i = false
  simp

@[simp] theorem and_ff (a : UInt8) : a &&& 0xff = a := UInt8.and_neg_one

/-- Masking out bits that are not there changes nothing. -/
theorem andNot_eq_self {a b : UInt8} (h : b &&& a = 0) : a &&& ~~~b = a := by
  refine byte_ext fun i hi => ?_
  have hbit := congrArg (fun c : UInt8 => c.toBitVec.getLsbD i) h
  simp only [UInt8.toBitVec_and, BitVec.getLsbD_and, getLsbD_zero_byte] at hbit
  rw [UInt8.toBitVec_and, UInt8.toBitVec_not, BitVec.getLsbD_and, BitVec.getLsbD_not,
    decide_eq_true hi]
  cases ha : a.toBitVec.getLsbD i with
  | false => rfl
  | true =>
    rw [ha, Bool.and_true] at hbit
    rw [hbit]
    rfl

theorem and_eq_ff_iff {a b : UInt8} : a &&& b = 0xff ↔ a = 0xff ∧ b = 0xff :=
  UInt8.and_eq_neg_one_iff

/-- A masked byte has all bits set iff it had them and the mask is empty. -/
theorem andNot_eq_ff_iff {a b : UInt8} : a &&& ~~~b = 0xff ↔ a = 0xff ∧ b = 0 := by
  show a &&& ~~~b = -1 ↔ a = -1 ∧ b = 0
  rw [UInt8.and_eq_neg_one_iff, ← UInt8.not_zero, UInt8.not_inj]

/-- Bit `i` of a word is bit `i % 8` of its byte `i / 8`. -/
theorem getLsbD_loadBytes (w : Nat) (f : Nat → UInt8) (i : Nat) :
    (loadBytes w f).getLsbD i
      = (decide (i < 8 * w) && (f (i / 8)).toBitVec.getLsbD (i % 8)) := by
  induction w generalizing f i with
  | zero => simp [loadBytes]
  | succ w ih =>
    rw [loadBytes, BitVec.getLsbD_append]
    by_cases hi : i < 8
    · have hdiv : i / 8 = 0 := by omega
      have hmod : i % 8 = i := by omega
      rw [hdiv, hmod, if_pos hi, decide_eq_true (show i < 8 * (w + 1) by omega),
        Bool.true_and]
    · have hdiv : i / 8 = (i - 8) / 8 + 1 := by omega
      have hmod : i % 8 = (i - 8) % 8 := by omega
      have hlt : decide (i - 8 < 8 * w) = decide (i < 8 * (w + 1)) := by
        rw [decide_eq_decide]
        omega
      rw [if_neg hi, ih, hdiv, hmod, hlt]

/-- Reading back a byte of a gathered word. -/
@[simp] theorem byteOf_loadBytes {w : Nat} (f : Nat → UInt8) {j : Nat} (hj : j < w) :
    byteOf (loadBytes w f) j = f j := by
  refine byte_ext fun i hi => ?_
  have hdiv : (8 * j + i) / 8 = j := by omega
  have hmod : (8 * j + i) % 8 = i := by omega
  show ((loadBytes w f).extractLsb' (8 * j) 8).getLsbD i = _
  rw [BitVec.getLsbD_extractLsb', getLsbD_loadBytes, hdiv, hmod, decide_eq_true hi,
    decide_eq_true (show 8 * j + i < 8 * w by omega)]
  rfl

/-- Word `&` is bytewise. -/
theorem loadBytes_and (w : Nat) (f g : Nat → UInt8) :
    loadBytes w f &&& loadBytes w g = loadBytes w fun j => f j &&& g j := by
  refine BitVec.eq_of_getLsbD_eq fun i hi => ?_
  rw [BitVec.getLsbD_and, getLsbD_loadBytes, getLsbD_loadBytes, getLsbD_loadBytes,
    UInt8.toBitVec_and, BitVec.getLsbD_and, decide_eq_true hi]
  rfl

/-- Word `& ~` is bytewise. -/
theorem loadBytes_andNot (w : Nat) (f g : Nat → UInt8) :
    loadBytes w f &&& ~~~loadBytes w g = loadBytes w fun j => f j &&& ~~~g j := by
  refine BitVec.eq_of_getLsbD_eq fun i hi => ?_
  have hmod : i % 8 < 8 := Nat.mod_lt _ (by omega)
  rw [BitVec.getLsbD_and, BitVec.getLsbD_not, getLsbD_loadBytes, getLsbD_loadBytes,
    getLsbD_loadBytes, UInt8.toBitVec_and, UInt8.toBitVec_not, BitVec.getLsbD_and,
    BitVec.getLsbD_not, decide_eq_true hi, decide_eq_true hmod]
  simp only [Bool.true_and]

/-- A word is zero iff each of its bytes is. -/
theorem loadBytes_eq_zero_iff (w : Nat) (f : Nat → UInt8) :
    loadBytes w f = 0 ↔ ∀ j, j < w → f j = 0 := by
  constructor
  · intro h j hj
    rw [← byteOf_loadBytes f hj, h]
    refine byte_ext fun i _ => ?_
    show ((0 : BitVec (8 * w)).extractLsb' (8 * j) 8).getLsbD i = (0#8).getLsbD i
    simp
  · intro h
    refine BitVec.eq_of_getLsbD_eq fun i hi => ?_
    rw [getLsbD_loadBytes, h (i / 8) (by omega)]
    simp

/-! ## Word access to a byte array -/

namespace ByteMap

variable {n : Nat}

/-- The byte at address `a`; zero outside the array. -/
def byteAt (m : ByteMap n) (a : Nat) : UInt8 :=
  if h : a < n then m ⟨a, h⟩ else 0

@[simp] theorem byteAt_val (m : ByteMap n) (i : Fin n) : m.byteAt i.val = m i := by
  rw [byteAt, dif_pos i.isLt]

/-- Word `k` of the array, for words of `w` bytes. -/
def loadWord (w : Nat) (m : ByteMap n) (k : Nat) : BitVec (8 * w) :=
  loadBytes w fun j => m.byteAt (w * k + j)

/-- Store word `k` of the array. -/
def storeWord (w : Nat) (m : ByteMap n) (k : Nat) (x : BitVec (8 * w)) : ByteMap n :=
  fun i => if i.val / w = k then byteOf x (i.val % w) else m i

theorem storeWord_of_ne {w : Nat} {m : ByteMap n} {k : Nat} {x : BitVec (8 * w)}
    {i : Fin n} (h : i.val / w ≠ k) : storeWord w m k x i = m i := by
  rw [storeWord, if_neg h]

theorem storeWord_of_eq {w : Nat} {m : ByteMap n} {k : Nat} {x : BitVec (8 * w)}
    {i : Fin n} (h : i.val / w = k) : storeWord w m k x i = byteOf x (i.val % w) := by
  rw [storeWord, if_pos h]

/-- The address of index `i`, split into its word and its place in the word. -/
theorem byteAt_split {w : Nat} (m : ByteMap n) (i : Fin n) :
    m.byteAt (w * (i.val / w) + i.val % w) = m i := by
  rw [Nat.div_add_mod, byteAt_val]

/-- The bytes of word `k` all lie inside an array of whole words. -/
theorem word_lt {w k j : Nat} (hdvd : w ∣ n) (hk : k < n / w) (hj : j < w) :
    w * k + j < n := by
  obtain ⟨c, rfl⟩ := hdvd
  rw [Nat.mul_div_cancel_left c (by omega)] at hk
  calc w * k + j < w * k + w := by omega
    _ = w * (k + 1) := (Nat.mul_succ w k).symm
    _ ≤ w * c := Nat.mul_le_mul_left w hk

/-- A property of the bytes of word `k` is a property of the indices in it. -/
theorem exists_word_iff {w k : Nat} (hw : 0 < w) (hdvd : w ∣ n) (hk : k < n / w)
    (P : Nat → Prop) :
    (∃ j, j < w ∧ P (w * k + j)) ↔ ∃ i : Fin n, i.val / w = k ∧ P i.val := by
  constructor
  · rintro ⟨j, hj, hP⟩
    refine ⟨⟨w * k + j, word_lt hdvd hk hj⟩, ?_, hP⟩
    show (w * k + j) / w = k
    rw [Nat.mul_add_div hw, Nat.div_eq_of_lt hj, Nat.add_zero]
  · rintro ⟨i, rfl, hP⟩
    refine ⟨i.val % w, Nat.mod_lt _ hw, ?_⟩
    rwa [Nat.div_add_mod]

end ByteMap

end DistFuzz.Lib
