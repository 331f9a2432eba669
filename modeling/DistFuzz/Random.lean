import Mathlib.Data.List.Count
import Mathlib.Data.UInt

/-!
# The random stream (core/src/dst_default_random.c)

Every decision of an injector is a byte of a file that the fuzzer mutates. The
file is loaded once; `fuzz_file_index` walks through it and past the end every
byte reads as `0`. The index is a `uint32_t`, the length a `uint64_t`.

- `readByte`, `getRandomUint8/16/32`: the readers, big-endian for the wide ones.
- `faultBytes`: bytes `≥ 50` still ahead. A read never increases it, and a
  read that returns such a byte spends one (`readByte_faultBytes`); this is the
  account behind the fault budget of the injectors.
-/

namespace DistFuzz

/-- The file buffer and the read position. -/
structure RandomFile where
  fuzzFileArray : List UInt8
  fuzzFileIndex : UInt32

namespace RandomFile

/-- The state after `init_random_file` loaded `file`. -/
def load (file : List UInt8) : RandomFile := ⟨file, 0⟩

/-- `read_byte`. -/
def readByte (r : RandomFile) : UInt8 × RandomFile :=
  match r.fuzzFileArray[r.fuzzFileIndex.toNat]? with
  | none => (0, r)
  | some t => (t, { r with fuzzFileIndex := r.fuzzFileIndex + 1 })

/-- `__dst_get_random_uint8_t`. -/
def getRandomUint8 (r : RandomFile) : UInt8 × RandomFile := r.readByte

/-- `__dst_get_random_uint16_t`. -/
def getRandomUint16 (r : RandomFile) : UInt16 × RandomFile :=
  let b₁ := r.readByte
  let b₂ := b₁.2.readByte
  ((b₁.1.toUInt16 <<< 8) ||| b₂.1.toUInt16, b₂.2)

/-- `__dst_get_random_uint32_t`. -/
def getRandomUint32 (r : RandomFile) : UInt32 × RandomFile :=
  let b₁ := r.readByte
  let b₂ := b₁.2.readByte
  let b₃ := b₂.2.readByte
  let b₄ := b₃.2.readByte
  ((((((b₁.1.toUInt32 <<< 8) ||| b₂.1.toUInt32) <<< 8) ||| b₃.1.toUInt32) <<< 8)
    ||| b₄.1.toUInt32, b₄.2)

/-- The file is exhausted: `fuzz_file_index >= fuzz_file_length`. -/
def AtEnd (r : RandomFile) : Prop := r.fuzzFileArray.length ≤ r.fuzzFileIndex.toNat

/-- The bytes not yet read that make an injector inject a fault. -/
def faultBytes (r : RandomFile) : Nat :=
  (r.fuzzFileArray.drop r.fuzzFileIndex.toNat).countP (50 ≤ ·)

/-- The file stays the same and is shorter than `2 ^ 32` bytes, so that the
index never wraps. -/
def Short (r : RandomFile) : Prop := r.fuzzFileArray.length < 2 ^ 32

theorem readByte_atEnd {r : RandomFile} (h : r.AtEnd) : r.readByte = (0, r) := by
  rw [readByte, List.getElem?_eq_none h]

/-- A read inside the file returns the byte at the index and steps over it. -/
theorem readByte_inside {r : RandomFile} (h : r.fuzzFileIndex.toNat < r.fuzzFileArray.length) :
    r.readByte = (r.fuzzFileArray[r.fuzzFileIndex.toNat],
      { r with fuzzFileIndex := r.fuzzFileIndex + 1 }) := by
  rw [readByte, List.getElem?_eq_getElem h]

/-- The index of a short file steps without wrapping. -/
theorem index_succ {r : RandomFile} (hs : r.Short)
    (h : r.fuzzFileIndex.toNat < r.fuzzFileArray.length) :
    (r.fuzzFileIndex + 1).toNat = r.fuzzFileIndex.toNat + 1 := by
  rw [UInt32.toNat_add]
  exact Nat.mod_eq_of_lt (Nat.lt_of_le_of_lt h hs)

@[simp] theorem readByte_array (r : RandomFile) :
    r.readByte.2.fuzzFileArray = r.fuzzFileArray := by
  rw [readByte]
  split <;> rfl

theorem readByte_short {r : RandomFile} (hs : r.Short) : r.readByte.2.Short := by
  rw [Short, readByte_array]
  exact hs

/-- A read spends the byte it returns, if that is a fault byte. -/
theorem readByte_faultBytes {r : RandomFile} (hs : r.Short) :
    r.readByte.2.faultBytes + (if 50 ≤ r.readByte.1 then 1 else 0) = r.faultBytes := by
  by_cases h : r.fuzzFileIndex.toNat < r.fuzzFileArray.length
  · rw [readByte_inside h, faultBytes, faultBytes, List.drop_eq_getElem_cons h,
      List.countP_cons, index_succ hs h]
    simp
  · rw [readByte_atEnd (Nat.le_of_not_lt h)]
    rfl

theorem readByte_stays_atEnd {r : RandomFile} (h : r.AtEnd) : r.readByte.2.AtEnd := by
  rw [readByte_atEnd h]
  exact h

/-! ## Any number of reads -/

/-- `r'` is `r` after some number of reads. -/
inductive Reads : RandomFile → RandomFile → Prop where
  | refl (r : RandomFile) : Reads r r
  | step {r r' : RandomFile} : Reads r.readByte.2 r' → Reads r r'

namespace Reads

theorem trans {r₁ r₂ r₃ : RandomFile} (h₁ : Reads r₁ r₂) (h₂ : Reads r₂ r₃) : Reads r₁ r₃ := by
  induction h₁ with
  | refl => exact h₂
  | step _ ih => exact .step (ih h₂)

theorem short {r r' : RandomFile} (h : Reads r r') (hs : r.Short) : r'.Short := by
  induction h with
  | refl => exact hs
  | step _ ih => exact ih (readByte_short hs)

/-- Reading on never brings fault bytes back. -/
theorem faultBytes_le {r r' : RandomFile} (h : Reads r r') (hs : r.Short) :
    r'.faultBytes ≤ r.faultBytes := by
  induction h with
  | refl => exact le_rfl
  | @step r r' _ ih =>
    have hread := readByte_faultBytes hs
    have hrest := ih (readByte_short hs)
    omega

theorem atEnd {r r' : RandomFile} (h : Reads r r') (he : r.AtEnd) : r'.AtEnd := by
  induction h with
  | refl => exact he
  | step _ ih => exact ih (readByte_stays_atEnd he)

end Reads

theorem reads_uint8 (r : RandomFile) : Reads r r.getRandomUint8.2 := .step (.refl _)

theorem reads_uint16 (r : RandomFile) : Reads r r.getRandomUint16.2 := .step (.step (.refl _))

end RandomFile

end DistFuzz
