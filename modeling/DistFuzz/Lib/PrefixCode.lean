import Mathlib.Data.List.Infix

/-!
# Prefix codes read off an endless sequence of bits

A code gives every symbol a word, and no word begins another's. Symbols are read off an
endless sequence of bits from some position on.

- `PrefixCode`, `encode`: the code, and the words of a message put together.
- `Begins`: these bits are in the sequence at this position.
- `Begins.unique`: at most one message of a length can be read at a position.
- `pad`: the sequence that begins with a word and goes on in zeros.
-/

namespace DistFuzz.Lib

variable {α : Type*}

/-- Words of which none begins another. -/
structure PrefixCode (α : Type*) where
  word : α → List Bool
  prefixFree : ∀ a b, word a <+: word b → a = b

/-- The words of a message, one after the other. -/
def PrefixCode.encode (c : PrefixCode α) (message : List α) : List Bool :=
  message.flatMap c.word

@[simp] theorem encode_nil (c : PrefixCode α) : c.encode [] = [] := rfl

@[simp] theorem encode_cons (c : PrefixCode α) (a : α) (message : List α) :
    c.encode (a :: message) = c.word a ++ c.encode message := List.flatMap_cons ..

theorem encode_concat (c : PrefixCode α) (message : List α) (a : α) :
    c.encode (message ++ [a]) = c.encode message ++ c.word a := by
  rw [PrefixCode.encode, List.flatMap_append, List.flatMap_singleton, PrefixCode.encode]

/-- The sequence has `w` at position `off`. -/
def Begins (bits : Nat → Bool) (off : Nat) (w : List Bool) : Prop :=
  ∀ i b, w[i]? = some b → bits (off + i) = b

theorem begins_nil (bits : Nat → Bool) (off : Nat) : Begins bits off [] :=
  fun _ _ h => nomatch h

theorem begins_append {bits : Nat → Bool} {off : Nat} {w w' : List Bool} :
    Begins bits off (w ++ w') ↔ Begins bits off w ∧ Begins bits (off + w.length) w' := by
  constructor
  · intro h
    refine ⟨fun i b hb => ?_, fun i b hb => ?_⟩
    · exact h i b ((List.getElem?_append_left (List.getElem?_eq_some_iff.mp hb).1).trans hb)
    · rw [Nat.add_assoc]
      refine h (w.length + i) b ?_
      rwa [List.getElem?_append_right (Nat.le_add_right ..), Nat.add_sub_cancel_left]
  · rintro ⟨h, h'⟩ i b hb
    by_cases hi : i < w.length
    · rw [List.getElem?_append_left hi] at hb
      exact h i b hb
    · rw [List.getElem?_append_right (Nat.le_of_not_lt hi)] at hb
      have hrest := h' (i - w.length) b hb
      rwa [Nat.add_assoc, Nat.add_sub_cancel' (Nat.le_of_not_lt hi)] at hrest

theorem begins_singleton {bits : Nat → Bool} {off : Nat} {b : Bool} (h : bits off = b) :
    Begins bits off [b] := by
  intro i b' hb'
  cases i with
  | zero =>
    obtain rfl := Option.some.inj hb'
    exact h
  | succ i => cases hb'

/-- Of two words at one position, the shorter begins the longer. -/
theorem Begins.isPrefix {bits : Nat → Bool} {off : Nat} {w w' : List Bool}
    (h : Begins bits off w) (h' : Begins bits off w') (hle : w.length ≤ w'.length) :
    w <+: w' := by
  rw [List.prefix_iff_eq_take]
  refine List.ext_getElem? fun i => ?_
  by_cases hi : i < w.length
  · have hi' : i < w'.length := by omega
    rw [List.getElem?_take_of_lt hi, List.getElem?_eq_getElem hi, List.getElem?_eq_getElem hi',
      ← h i _ (List.getElem?_eq_getElem hi), ← h' i _ (List.getElem?_eq_getElem hi')]
  · rw [List.getElem?_eq_none (Nat.le_of_not_lt hi),
      List.getElem?_eq_none (by rw [List.length_take]; omega)]

/-- One symbol at most can be read at a position. -/
theorem Begins.word_unique {bits : Nat → Bool} {off : Nat} {c : PrefixCode α} {a b : α}
    (ha : Begins bits off (c.word a)) (hb : Begins bits off (c.word b)) : a = b := by
  rcases Nat.le_total (c.word a).length (c.word b).length with hle | hle
  · exact c.prefixFree a b (ha.isPrefix hb hle)
  · exact (c.prefixFree b a (hb.isPrefix ha hle)).symm

/-- One message at most, of a given length. -/
theorem Begins.unique {bits : Nat → Bool} {off : Nat} {c : PrefixCode α}
    {message message' : List α} (h : Begins bits off (c.encode message))
    (h' : Begins bits off (c.encode message')) (hlength : message.length = message'.length) :
    message = message' := by
  induction message generalizing message' off with
  | nil => exact (List.length_eq_zero_iff.mp hlength.symm).symm
  | cons a message ih =>
    cases message' with
    | nil => cases hlength
    | cons b message' =>
      rw [encode_cons, begins_append] at h h'
      obtain rfl := h.1.word_unique h'.1
      rw [ih h.2 h'.2 (Nat.succ.inj hlength)]

/-- The sequence that begins with `w` and goes on in zeros. -/
def pad (w : List Bool) (i : Nat) : Bool := w.getD i false

theorem begins_pad (w : List Bool) : Begins (pad w) 0 w := by
  intro i b hb
  rw [Nat.zero_add, pad, List.getD_eq_getElem?_getD, hb, Option.getD_some]

end DistFuzz.Lib
