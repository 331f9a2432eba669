import DistFuzz.Lib.ByteMap

/-!
# Byte strings as strings of bits

The bits of a byte string, numbered from the most significant bit of its first byte
on, and the string with some of them flipped or some of its bytes replaced.

- `bitIn`, `eq_of_bitIn`: a byte string is its bits.
- `flipAt`, `flipAll`, `bitIn_flipAll`: flipped bits; flipping the same ones again
  gives the string back (`flipAll_twice`).
- `overwrite`: some bytes replaced, with what is where then (`getD_overwrite`), and
  what another overwriting hides or undoes (`overwrite_of_le`, `overwrite_undo`).
-/

namespace DistFuzz.Lib

/-! ## Bits -/

/-- Bit `b` of a byte string; the first bit of a byte is its most significant one. -/
def bitIn (l : List UInt8) (b : Nat) : Bool := (l.getD (b / 8) 0).toBitVec.getMsbD (b % 8)

/-- Bytes are equal when their bits are, from the most significant one on. -/
theorem byte_ext_msb {x y : UInt8}
    (h : ∀ j, j < 8 → x.toBitVec.getMsbD j = y.toBitVec.getMsbD j) : x = y :=
  UInt8.toBitVec_inj.mp (BitVec.eq_of_getMsbD_eq h)

theorem eq_of_bitIn {l l' : List UInt8} (hlen : l.length = l'.length)
    (h : ∀ b, b < 8 * l.length → bitIn l b = bitIn l' b) : l = l' := by
  refine List.ext_getElem hlen fun k hk hk' => byte_ext_msb fun j hj => ?_
  have hbit := h (8 * k + j) (by omega)
  have hdiv : (8 * k + j) / 8 = k := by omega
  have hmod : (8 * k + j) % 8 = j := by omega
  rwa [bitIn, bitIn, hdiv, hmod, List.getD_eq_getElem _ _ hk, List.getD_eq_getElem _ _ hk'] at hbit

/-- The string with bit `p` flipped. -/
def flipAt (l : List UInt8) (p : Nat) : List UInt8 :=
  l.modify (p / 8) fun x => x ^^^ 128 >>> UInt8.ofNat (p % 8)

@[simp] theorem length_flipAt (l : List UInt8) (p : Nat) : (flipAt l p).length = l.length :=
  List.length_modify ..

/-- `128 >> k` has bit `k` and no other. -/
theorem getMsbD_shifted : ∀ k j : Fin 8,
    ((128 : UInt8) >>> UInt8.ofNat k.val).toBitVec.getMsbD j.val = decide (j = k) := by
  decide

theorem bitIn_flipAt {l : List UInt8} {p : Nat} (hp : p < 8 * l.length) (b : Nat) :
    bitIn (flipAt l p) b = (bitIn l b ^^ decide (b = p)) := by
  have hb : b % 8 < 8 := Nat.mod_lt _ (by omega)
  have hk : p % 8 < 8 := Nat.mod_lt _ (by omega)
  have hin : p / 8 < l.length := by omega
  -- only the byte of `p` changes, and in it only one bit
  by_cases hbyte : b / 8 = p / 8
  · have hget : (flipAt l p).getD (b / 8) 0
        = l.getD (b / 8) 0 ^^^ 128 >>> UInt8.ofNat (p % 8) := by
      rw [hbyte, List.getD_eq_getElem _ _ (by rwa [length_flipAt]), List.getD_eq_getElem _ _ hin]
      exact List.getElem_modify_eq ..
    have hone := getMsbD_shifted ⟨p % 8, hk⟩ ⟨b % 8, hb⟩
    have hiff : ((⟨b % 8, hb⟩ : Fin 8) = ⟨p % 8, hk⟩) ↔ b = p := by
      rw [Fin.mk.injEq]
      omega
    rw [bitIn, hget, UInt8.toBitVec_xor, BitVec.getMsbD_xor, hone, decide_eq_decide.mpr hiff]
    rfl
  · have hget : (flipAt l p).getD (b / 8) 0 = l.getD (b / 8) 0 := by
      rw [List.getD_eq_getElem?_getD, List.getD_eq_getElem?_getD, flipAt,
        List.getElem?_modify_ne _ _ (Ne.symm hbyte)]
    have hne : b ≠ p := fun h => hbyte (by rw [h])
    rw [bitIn, hget, decide_eq_false hne, Bool.xor_false]
    rfl

/-- The string with the listed bits flipped, one after the other. -/
def flipAll (l : List UInt8) (ps : List Nat) : List UInt8 := ps.foldl flipAt l

@[simp] theorem length_flipAll (l : List UInt8) (ps : List Nat) :
    (flipAll l ps).length = l.length := by
  induction ps generalizing l with
  | nil => rfl
  | cons p ps ih =>
    show (flipAll (flipAt l p) ps).length = _
    rw [ih, length_flipAt]

/-- A bit changes if it is flipped an odd number of times. -/
theorem bitIn_flipAll {l : List UInt8} {ps : List Nat} (hps : ∀ p ∈ ps, p < 8 * l.length)
    (b : Nat) : bitIn (flipAll l ps) b = (bitIn l b ^^ decide (ps.count b % 2 = 1)) := by
  induction ps generalizing l with
  | nil => simp [flipAll]
  | cons p ps ih =>
    rw [List.forall_mem_cons] at hps
    have hrest := ih (l := flipAt l p) fun q hq => by
      rw [length_flipAt]
      exact hps.2 q hq
    show bitIn (flipAll (flipAt l p) ps) b = _
    rw [hrest, bitIn_flipAt hps.1, List.count_cons, Bool.xor_assoc]
    congr 1
    -- the parity changes for the bit that is flipped and for no other
    by_cases hbp : p = b
    · have hbeq : (p == b) = true := by rw [beq_iff_eq]; exact hbp
      rw [hbeq, if_pos rfl, decide_eq_true hbp.symm, Bool.true_xor, ← decide_not,
        decide_eq_decide]
      omega
    · have hbeq : (p == b) = false := by rw [beq_eq_false_iff_ne]; exact hbp
      rw [hbeq, if_neg Bool.false_ne_true, decide_eq_false (Ne.symm hbp), Bool.false_xor,
        Nat.add_zero]

/-- Bits flipped once each. -/
theorem bitIn_flipAll_nodup {l : List UInt8} {ps : List Nat} (hps : ∀ p ∈ ps, p < 8 * l.length)
    (hnodup : ps.Nodup) (b : Nat) :
    bitIn (flipAll l ps) b = (bitIn l b ^^ decide (b ∈ ps)) := by
  rw [bitIn_flipAll hps, decide_eq_decide.mpr]
  rw [hnodup.count]
  split
  · next h => exact iff_of_true rfl h
  · next h => exact iff_of_false (by omega) h

theorem flipAll_append (l : List UInt8) (ps qs : List Nat) :
    flipAll (flipAll l ps) qs = flipAll l (ps ++ qs) := (List.foldl_append ..).symm

/-- Flipping the same bits again gives the string back. -/
theorem flipAll_twice {l : List UInt8} {ps : List Nat} (hps : ∀ p ∈ ps, p < 8 * l.length) :
    flipAll (flipAll l ps) ps = l := by
  refine eq_of_bitIn (by simp) fun b _ => ?_
  rw [flipAll_append, bitIn_flipAll, List.count_append, ← Nat.two_mul,
    Nat.mul_mod_right, decide_eq_false (by omega), Bool.xor_false]
  intro p hp
  exact (List.mem_append.mp hp).elim (hps p) (hps p)

/-! ## Bytes replaced -/

/-- The string with `xs` in place of its bytes from `off` on. -/
def overwrite (l : List UInt8) (off : Nat) (xs : List UInt8) : List UInt8 :=
  l.take off ++ (xs ++ l.drop (off + xs.length))

theorem overwrite_nil (l : List UInt8) (off : Nat) : overwrite l off [] = l :=
  List.take_append_drop off l

theorem length_overwrite {l : List UInt8} {off : Nat} {xs : List UInt8}
    (h : off + xs.length ≤ l.length) : (overwrite l off xs).length = l.length := by
  simp only [overwrite, List.length_append, List.length_take, List.length_drop]
  omega

/-- What stands where afterwards. -/
theorem getD_overwrite {l : List UInt8} {off : Nat} {xs : List UInt8}
    (h : off + xs.length ≤ l.length) (k : Nat) :
    (overwrite l off xs).getD k 0
      = if off ≤ k ∧ k < off + xs.length then xs.getD (k - off) 0 else l.getD k 0 := by
  have htake : (l.take off).length = off := List.length_take_of_le (by omega)
  simp only [List.getD_eq_getElem?_getD, overwrite]
  by_cases hlt : k < off
  · rw [if_neg (by omega), List.getElem?_append_left (by omega), List.getElem?_take_of_lt hlt]
  · rw [List.getElem?_append_right (by omega), htake]
    by_cases hin : k < off + xs.length
    · rw [if_pos ⟨by omega, hin⟩, List.getElem?_append_left (by omega)]
    · rw [if_neg (by omega), List.getElem?_append_right (by omega), List.getElem?_drop]
      congr 2
      omega

/-- Byte strings of the same length that agree everywhere. -/
theorem eq_of_getD {l l' : List UInt8} (hlen : l.length = l'.length)
    (h : ∀ k, l.getD k 0 = l'.getD k 0) : l = l' := by
  refine List.ext_getElem hlen fun k hk hk' => ?_
  have hget := h k
  rwa [List.getD_eq_getElem _ _ hk, List.getD_eq_getElem _ _ hk'] at hget

/-- A longer string at the same place hides a shorter one. -/
theorem overwrite_of_le {l : List UInt8} {off : Nat} {xs ys : List UInt8}
    (hle : xs.length ≤ ys.length) (h : off + ys.length ≤ l.length) :
    overwrite (overwrite l off xs) off ys = overwrite l off ys := by
  have hxs : (overwrite l off xs).length = l.length := length_overwrite (by omega)
  refine eq_of_getD ?_ fun k => ?_
  · rw [length_overwrite (by omega), length_overwrite h, hxs]
  · rw [getD_overwrite (by omega), getD_overwrite h, getD_overwrite (by omega)]
    by_cases hin : off ≤ k ∧ k < off + ys.length
    · rw [if_pos hin, if_pos hin]
    · rw [if_neg hin, if_neg hin, if_neg (by omega)]

/-- Putting back what stood there. -/
theorem overwrite_undo {l : List UInt8} {off n : Nat} {xs : List UInt8} (hle : xs.length ≤ n)
    (h : off + n ≤ l.length) :
    overwrite (overwrite l off xs) off ((l.drop off).take n) = l := by
  have hlen : ((l.drop off).take n).length = n := by
    rw [List.length_take, List.length_drop]
    omega
  rw [overwrite_of_le (by omega) (by omega)]
  refine eq_of_getD (length_overwrite (by omega)) fun k => ?_
  rw [getD_overwrite (by omega)]
  split
  · next hin =>
    rw [List.getD_eq_getElem?_getD, List.getD_eq_getElem?_getD,
      List.getElem?_take_of_lt (by omega), List.getElem?_drop, Nat.add_sub_cancel' hin.1]
  · rfl

/-- Putting the same bytes there again changes nothing. -/
theorem overwrite_same {l : List UInt8} {off n : Nat} (h : off + n ≤ l.length) :
    overwrite l off ((l.drop off).take n) = l := by
  have hnil : ([] : List UInt8).length ≤ n := Nat.zero_le n
  have hundo := overwrite_undo hnil h
  rwa [overwrite_nil] at hundo

/-- The string up to the end of what was replaced. -/
theorem take_overwrite_end {l : List UInt8} {off : Nat} (h : off ≤ l.length) (xs : List UInt8) :
    (overwrite l off xs).take (off + xs.length) = l.take off ++ xs := by
  have hlen : (l.take off ++ xs).length = off + xs.length := by
    rw [List.length_append, List.length_take_of_le h]
  rw [overwrite, ← List.append_assoc, List.take_left' hlen]

/-- If nothing changes, what is put there stood there. -/
theorem take_drop_of_overwrite_eq {l : List UInt8} {off : Nat} {xs : List UInt8}
    (h : off ≤ l.length) (heq : overwrite l off xs = l) : (l.drop off).take xs.length = xs := by
  have hend := take_overwrite_end h xs
  rw [heq, List.take_add] at hend
  exact List.append_cancel_left hend

/-- What stands before it stays. -/
theorem take_overwrite_of_le {l : List UInt8} {off k : Nat} (h : off ≤ l.length) (hk : k ≤ off)
    (xs : List UInt8) : (overwrite l off xs).take k = l.take k := by
  have hlen : k ≤ (l.take off).length := by rwa [List.length_take_of_le h]
  rw [overwrite, List.take_append_of_le_length hlen, List.take_take, Nat.min_eq_left hk]

/-- Outside of what was replaced all bits are as before. -/
theorem bitIn_overwrite_of_lt {l : List UInt8} {off : Nat} {xs : List UInt8}
    (h : off + xs.length ≤ l.length) {b : Nat}
    (hb : b < 8 * off ∨ 8 * off + 8 * xs.length ≤ b) :
    bitIn (overwrite l off xs) b = bitIn l b := by
  rw [bitIn, bitIn, getD_overwrite h, if_neg (by omega)]

end DistFuzz.Lib
