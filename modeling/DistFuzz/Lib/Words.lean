import DistFuzz.Lib.BitString

/-!
# Words in a byte string

A word is stored least significant byte first, so its bits stand in another order
than the bits of the string.

- `wordBytes`, `wordAt`: a word as bytes and the word that stands somewhere.
- `bitIn_overwrite_word`, `bitIn_wordAt`: where the bits of a word are.
- `toNat_loadBytes_succ`, `toNat_byteOf`: values.
- `overwrite_word_eq_iff`, `toNat_xor_of_overwrite_eq`: two words of different widths
  stored in one window, and the change that each of them makes.
- `byteOf_add_low`, `byteOf_sub_low`: a sum or difference that does not carry out of
  the low bytes.
- `part`, `overwrite_part`, `change_eq`: a part of a word, and one change made through
  several windows.
-/

namespace DistFuzz.Lib

/-- The bytes of a word, as they stand in memory. -/
def wordBytes {w : Nat} (x : BitVec (8 * w)) : List UInt8 := (List.range w).map (byteOf x)

@[simp] theorem length_wordBytes {w : Nat} (x : BitVec (8 * w)) : (wordBytes x).length = w := by
  rw [wordBytes, List.length_map, List.length_range]

theorem getD_wordBytes {w : Nat} (x : BitVec (8 * w)) {j : Nat} (hj : j < w) :
    (wordBytes x).getD j 0 = byteOf x j := by
  rw [List.getD_eq_getElem _ _ (by rwa [length_wordBytes])]
  simp [wordBytes]

/-- The word at position `off` of a byte string. -/
def wordAt (w : Nat) (l : List UInt8) (off : Nat) : BitVec (8 * w) :=
  loadBytes w fun j => l.getD (off + j) 0

/-- A word is made of its first `w` bytes. -/
theorem loadBytes_congr {w : Nat} {f g : Nat → UInt8} (h : ∀ j, j < w → f j = g j) :
    loadBytes w f = loadBytes w g := by
  refine BitVec.eq_of_getLsbD_eq fun k hk => ?_
  rw [getLsbD_loadBytes, getLsbD_loadBytes, h (k / 8) (by omega)]

/-- A word read through the bytes that stand there. -/
theorem loadBytes_take {w : Nat} (l : List UInt8) (off : Nat) :
    loadBytes w (fun j => ((l.drop off).take w).getD j 0) = wordAt w l off := by
  refine loadBytes_congr fun j hj => ?_
  rw [List.getD_eq_getElem?_getD, List.getElem?_take_of_lt hj, List.getElem?_drop,
    List.getD_eq_getElem?_getD]

/-- The bytes of a word that was read are those that stood there. -/
theorem wordBytes_wordAt {w : Nat} {l : List UInt8} {off : Nat} (h : off + w ≤ l.length) :
    wordBytes (wordAt w l off) = (l.drop off).take w := by
  have hlen : ((l.drop off).take w).length = w := by
    rw [List.length_take, List.length_drop]
    omega
  refine List.ext_getElem (by rw [length_wordBytes, hlen]) fun j hj hj' => ?_
  rw [length_wordBytes] at hj
  rw [List.getElem_take, List.getElem_drop]
  simp only [wordBytes, List.getElem_map, List.getElem_range, wordAt, byteOf_loadBytes _ hj]
  exact List.getD_eq_getElem _ _ (by omega)

/-- The value of a word, from its lowest byte on. -/
theorem toNat_loadBytes_succ (w : Nat) (f : Nat → UInt8) :
    (loadBytes (w + 1) f).toNat
      = (f 0).toNat + 256 * (loadBytes w fun j => f (j + 1)).toNat := by
  rw [loadBytes, BitVec.toNat_append, Nat.shiftLeft_eq, Nat.mul_comm,
    ← Nat.two_pow_add_eq_or_of_lt (f 0).toBitVec.isLt, Nat.add_comm]
  rfl

/-- The value of a byte of a word. -/
theorem toNat_byteOf {w : Nat} (x : BitVec (8 * w)) (j : Nat) :
    (byteOf x j).toNat = x.toNat / 2 ^ (8 * j) % 256 := by
  show (x.extractLsb' (8 * j) 8).toNat = _
  rw [BitVec.extractLsb'_toNat, Nat.shiftRight_eq_div_pow]

/-- A word is the word of its bytes. -/
theorem loadBytes_byteOf {w : Nat} (x : BitVec (8 * w)) : loadBytes w (byteOf x) = x := by
  refine BitVec.eq_of_getLsbD_eq fun k hk => ?_
  have hmod : k % 8 < 8 := Nat.mod_lt _ (by omega)
  rw [getLsbD_loadBytes, decide_eq_true hk, Bool.true_and]
  show (x.extractLsb' (8 * (k / 8)) 8).getLsbD (k % 8) = _
  rw [BitVec.getLsbD_extractLsb', decide_eq_true hmod, Bool.true_and, Nat.div_add_mod]

/-- Bit `b` of the string stands for bit `wordBit off b` of the word at `off`. -/
def wordBit (off b : Nat) : Nat := 8 * (b / 8 - off) + (7 - b % 8)

theorem getMsbD_byteOf {w : Nat} (x : BitVec (8 * w)) {j k : Nat} (hk : k < 8) :
    (byteOf x j).toBitVec.getMsbD k = x.getLsbD (8 * j + (7 - k)) := by
  show (x.extractLsb' (8 * j) 8).getMsbD k = _
  rw [BitVec.getMsbD_eq_getLsbD, BitVec.getLsbD_extractLsb', decide_eq_true hk,
    decide_eq_true (show 8 - 1 - k < 8 by omega)]
  rfl

/-- The bits of a string with a word stored in it. -/
theorem bitIn_overwrite_word {l : List UInt8} {off w : Nat} (x : BitVec (8 * w))
    (h : off + w ≤ l.length) (b : Nat) :
    bitIn (overwrite l off (wordBytes x)) b
      = if off ≤ b / 8 ∧ b / 8 < off + w then x.getLsbD (wordBit off b) else bitIn l b := by
  have hlen : off + (wordBytes x).length ≤ l.length := by rwa [length_wordBytes]
  rw [bitIn, getD_overwrite hlen, length_wordBytes]
  split
  · next hin =>
    rw [getD_wordBytes x (by omega), getMsbD_byteOf x (Nat.mod_lt _ (by omega))]
    rfl
  · rfl

/-- The bits of a word that was read. -/
theorem bitIn_wordAt {l : List UInt8} {off w b : Nat} (hb : off ≤ b / 8 ∧ b / 8 < off + w) :
    (wordAt w l off).getLsbD (wordBit off b) = bitIn l b := by
  have hmod : b % 8 < 8 := Nat.mod_lt _ (by omega)
  -- the byte of the word, and the bit in it, which counts from the other end
  have hdiv : wordBit off b / 8 = b / 8 - off := by
    unfold wordBit
    omega
  have hrem : wordBit off b % 8 = 7 - b % 8 := by
    unfold wordBit
    omega
  rw [wordAt, getLsbD_loadBytes, hdiv, hrem, Nat.add_sub_cancel' hb.1,
    decide_eq_true (show wordBit off b < 8 * w by unfold wordBit; omega), Bool.true_and, bitIn,
    BitVec.getMsbD_eq_getLsbD, decide_eq_true hmod]
  rfl

/-- A word stored changes the bits in which it differs from what stood there. -/
theorem bitIn_overwrite_xor {l : List UInt8} {off w : Nat} (x : BitVec (8 * w))
    (h : off + w ≤ l.length) (b : Nat) :
    bitIn (overwrite l off (wordBytes x)) b = (bitIn l b ^^
      (decide (off ≤ b / 8 ∧ b / 8 < off + w) &&
        (wordAt w l off ^^^ x).getLsbD (wordBit off b))) := by
  rw [bitIn_overwrite_word x h]
  by_cases hin : off ≤ b / 8 ∧ b / 8 < off + w
  · rw [if_pos hin, decide_eq_true hin, Bool.true_and, BitVec.getLsbD_xor, bitIn_wordAt hin,
      ← Bool.xor_assoc, Bool.xor_self, Bool.false_xor]
  · rw [if_neg hin, decide_eq_false hin, Bool.false_and, Bool.xor_false]

/-- A stored word as flipped bits. -/
theorem flipAll_eq_overwrite_iff {l : List UInt8} {ps : List Nat} {off w : Nat}
    (hps : ∀ p ∈ ps, p < 8 * l.length) (hnodup : ps.Nodup) (h : off + w ≤ l.length)
    (x : BitVec (8 * w)) :
    flipAll l ps = overwrite l off (wordBytes x) ↔ ∀ b, b < 8 * l.length →
      (b ∈ ps ↔ (off ≤ b / 8 ∧ b / 8 < off + w) ∧
        (wordAt w l off ^^^ x).getLsbD (wordBit off b) = true) := by
  have hbit : ∀ b, bitIn (flipAll l ps) b = bitIn (overwrite l off (wordBytes x)) b ↔
      (b ∈ ps ↔ (off ≤ b / 8 ∧ b / 8 < off + w) ∧
        (wordAt w l off ^^^ x).getLsbD (wordBit off b) = true) := by
    intro b
    rw [bitIn_flipAll_nodup hps hnodup, bitIn_overwrite_xor x h, Bool.xor_right_inj,
      Bool.eq_iff_iff, Bool.and_eq_true, decide_eq_true_iff, decide_eq_true_iff]
  -- two lists of one length are equal if their bits are
  constructor
  · intro heq b _
    rw [← hbit, heq]
  · intro hall
    refine eq_of_bitIn ?_ fun b hb => (hbit b).mpr (hall b (by rwa [length_flipAll] at hb))
    rw [length_flipAll, length_overwrite (by rwa [length_wordBytes])]

/-- The bits of a number that is one run of ones. -/
theorem getLsbD_of_run {m n k : Nat} {d : BitVec m} (hd : d.toNat = (2 ^ n - 1) * 2 ^ k)
    (j : Nat) : d.getLsbD j = decide (k ≤ j ∧ j < k + n) := by
  rw [BitVec.getLsbD, hd, Nat.testBit_mul_two_pow, Nat.testBit_two_pow_sub_one, ← Bool.decide_and,
    decide_eq_decide]
  omega

/-- The word that was stored is read back. -/
theorem wordAt_overwrite {l : List UInt8} {off w : Nat} (h : off + w ≤ l.length)
    (x : BitVec (8 * w)) : wordAt w (overwrite l off (wordBytes x)) off = x := by
  have hbytes : ∀ j, j < w → (overwrite l off (wordBytes x)).getD (off + j) 0 = byteOf x j := by
    intro j hj
    rw [getD_overwrite (by rwa [length_wordBytes]), length_wordBytes, if_pos (by omega),
      Nat.add_sub_cancel_left, getD_wordBytes x hj]
  rw [wordAt, loadBytes_congr hbytes, loadBytes_byteOf]

/-- A word stored leaves the string as it was just if it stood there before. -/
theorem overwrite_word_eq_self_iff {l : List UInt8} {off w : Nat} (h : off + w ≤ l.length)
    (x : BitVec (8 * w)) : overwrite l off (wordBytes x) = l ↔ x = wordAt w l off := by
  constructor
  · intro heq
    rw [← wordAt_overwrite h x, heq]
  · rintro rfl
    rw [wordBytes_wordAt h, overwrite_same h]

/-- A word stored, compared with a narrower one stored inside of the same window. -/
theorem overwrite_word_eq_iff {l : List UInt8} {i off v w : Nat} (hi : i + w ≤ l.length)
    (hoff : off + v ≤ w) (x : BitVec (8 * w)) (y : BitVec (8 * v)) :
    overwrite l i (wordBytes x) = overwrite l (i + off) (wordBytes y)
      ↔ ∀ t, t < w → byteOf x t
          = if off ≤ t ∧ t < off + v then byteOf y (t - off) else l.getD (i + t) 0 := by
  have hx : i + (wordBytes x).length ≤ l.length := by rwa [length_wordBytes]
  have hy : i + off + (wordBytes y).length ≤ l.length := by rw [length_wordBytes]; omega
  constructor
  · intro h t ht
    have hget := congrArg (fun l' => l'.getD (i + t) 0) h
    rw [getD_overwrite hx, getD_overwrite hy, length_wordBytes, length_wordBytes,
      if_pos (by omega), Nat.add_sub_cancel_left, getD_wordBytes x ht] at hget
    rw [hget]
    by_cases hin : off ≤ t ∧ t < off + v
    · rw [if_pos hin, if_pos (by omega), Nat.add_sub_add_left, getD_wordBytes y (by omega)]
    · rw [if_neg hin, if_neg (by omega)]
  · intro h
    refine eq_of_getD (by rw [length_overwrite hx, length_overwrite hy]) fun k => ?_
    rw [getD_overwrite hx, getD_overwrite hy, length_wordBytes, length_wordBytes]
    -- outside the wider window both leave the list as it was
    by_cases hk : i ≤ k ∧ k < i + w
    · obtain ⟨t, rfl⟩ := Nat.exists_eq_add_of_le hk.1
      rw [if_pos hk, Nat.add_sub_cancel_left, getD_wordBytes x (by omega), h t (by omega)]
      by_cases hin : off ≤ t ∧ t < off + v
      · rw [if_pos hin, if_pos (by omega), Nat.add_sub_add_left, getD_wordBytes y (by omega)]
      · rw [if_neg hin, if_neg (by omega)]
    · rw [if_neg hk, if_neg (by omega)]

/-- A narrower word with the same low bytes is the remainder of the wider one. -/
theorem toNat_eq_mod_of_byteOf {v w : Nat} {x : BitVec (8 * w)} {y : BitVec (8 * v)} (hvw : v ≤ w)
    (h : ∀ t, t < v → byteOf y t = byteOf x t) : y.toNat = x.toNat % 2 ^ (8 * v) := by
  rw [← BitVec.toNat_setWidth]
  congr 1
  refine BitVec.eq_of_getLsbD_eq fun k hk => ?_
  rw [BitVec.getLsbD_setWidth, decide_eq_true hk, Bool.true_and, ← loadBytes_byteOf y,
    ← loadBytes_byteOf x, getLsbD_loadBytes, getLsbD_loadBytes, decide_eq_true hk,
    decide_eq_true (show k < 8 * w by omega), h (k / 8) (by omega)]

/-- The bytes of a word that was read. -/
theorem byteOf_wordAt {w : Nat} (l : List UInt8) (off : Nat) {t : Nat} (ht : t < w) :
    byteOf (wordAt w l off) t = l.getD (off + t) 0 := byteOf_loadBytes _ ht

theorem toNat_wordAt_zero (l : List UInt8) (off : Nat) : (wordAt 0 l off).toNat = 0 := rfl

/-- The value of a word that was read, from its lowest byte on. -/
theorem toNat_wordAt_succ (w : Nat) (l : List UInt8) (off : Nat) :
    (wordAt (w + 1) l off).toNat
      = (l.getD off 0).toNat + 256 * (wordAt w l (off + 1)).toNat := by
  have hshift : (fun j => l.getD (off + (j + 1)) 0) = fun j => l.getD (off + 1 + j) 0 := by
    funext j
    rw [Nat.add_right_comm, Nat.add_assoc]
  rw [wordAt, toNat_loadBytes_succ, Nat.add_zero, hshift, wordAt]

theorem getLsbD_eq_byteOf {w : Nat} (x : BitVec (8 * w)) (k : Nat) :
    x.getLsbD k = (byteOf x (k / 8)).toBitVec.getLsbD (k % 8) := by
  show _ = (x.extractLsb' (8 * (k / 8)) 8).getLsbD (k % 8)
  rw [BitVec.getLsbD_extractLsb', decide_eq_true (Nat.mod_lt _ (by decide)), Bool.true_and,
    Nat.div_add_mod]

/-- A word whose bytes are those of a narrower one, moved up. -/
theorem toNat_eq_mul_of_byteOf {v w off : Nat} {x : BitVec (8 * w)} {y : BitVec (8 * v)}
    (hoff : off + v ≤ w) (h : ∀ t, t < w → byteOf x t
      = if off ≤ t ∧ t < off + v then byteOf y (t - off) else 0) :
    x.toNat = y.toNat * 2 ^ (8 * off) := by
  have hlt : y.toNat * 2 ^ (8 * off) < 2 ^ (8 * w) := by
    calc y.toNat * 2 ^ (8 * off) < 2 ^ (8 * v) * 2 ^ (8 * off) :=
          Nat.mul_lt_mul_of_pos_right y.isLt (Nat.two_pow_pos _)
      _ = 2 ^ (8 * v + 8 * off) := (Nat.pow_add ..).symm
      _ ≤ 2 ^ (8 * w) := Nat.pow_le_pow_right (by decide) (by omega)
  -- bit by bit: below the offset and above the narrow word there are zeros
  have hx : x = BitVec.ofNat (8 * w) (y.toNat * 2 ^ (8 * off)) := by
    refine BitVec.eq_of_getLsbD_eq fun k hk => ?_
    rw [BitVec.getLsbD_ofNat, decide_eq_true hk, Bool.true_and, Nat.testBit_mul_two_pow,
      getLsbD_eq_byteOf, h (k / 8) (by omega)]
    by_cases hlow : 8 * off ≤ k
    · rw [decide_eq_true hlow, Bool.true_and, ← BitVec.getLsbD]
      by_cases hin : k / 8 < off + v
      · have hdiv : (k - 8 * off) / 8 = k / 8 - off := by omega
        have hmod : (k - 8 * off) % 8 = k % 8 := by omega
        rw [if_pos ⟨by omega, hin⟩, getLsbD_eq_byteOf y, hdiv, hmod]
      · rw [if_neg (by omega), getLsbD_zero_byte, BitVec.getLsbD_of_ge _ _ (by omega)]
    · rw [decide_eq_false hlow, Bool.false_and, if_neg (by omega), getLsbD_zero_byte]
  rw [hx, BitVec.toNat_ofNat, Nat.mod_eq_of_lt hlt]

theorem byteOf_xor {w : Nat} (x y : BitVec (8 * w)) (t : Nat) :
    byteOf (x ^^^ y) t = byteOf x t ^^^ byteOf y t := by
  refine byte_ext fun k hk => ?_
  show ((x ^^^ y).extractLsb' (8 * t) 8).getLsbD k
    = (x.extractLsb' (8 * t) 8 ^^^ y.extractLsb' (8 * t) 8).getLsbD k
  rw [BitVec.getLsbD_xor, BitVec.getLsbD_extractLsb', BitVec.getLsbD_extractLsb',
    BitVec.getLsbD_extractLsb', BitVec.getLsbD_xor, decide_eq_true hk]
  rfl

/-- The same change, seen in a window and in a narrower one inside of it. -/
theorem toNat_xor_of_overwrite_eq {l : List UInt8} {i off v w : Nat} (hi : i + w ≤ l.length)
    (hoff : off + v ≤ w) {x : BitVec (8 * w)} {y : BitVec (8 * v)}
    (h : overwrite l i (wordBytes x) = overwrite l (i + off) (wordBytes y)) :
    (wordAt w l i ^^^ x).toNat = (wordAt v l (i + off) ^^^ y).toNat * 2 ^ (8 * off) := by
  refine toNat_eq_mul_of_byteOf hoff fun t ht => ?_
  rw [byteOf_xor, byteOf_wordAt l i ht, (overwrite_word_eq_iff hi hoff x y).mp h t ht]
  by_cases hin : off ≤ t ∧ t < off + v
  · rw [if_pos hin, if_pos hin, byteOf_xor, byteOf_wordAt _ _ (by omega)]
    congr 2
    omega
  · rw [if_neg hin, if_neg hin, UInt8.xor_self]

/-! ## Sums and differences -/

/-- The low bytes of a word depend on its low part only. -/
theorem byteOf_congr_low {v w w' : Nat} {x : BitVec (8 * w)} {y : BitVec (8 * w')}
    (h : x.toNat % 2 ^ (8 * v) = y.toNat % 2 ^ (8 * v)) {t : Nat} (ht : t < v) :
    byteOf x t = byteOf y t := by
  have hlow : ∀ n : Nat, n / 2 ^ (8 * t) % 256 = n % 2 ^ (8 * v) / 2 ^ (8 * t) % 256 := by
    intro n
    obtain ⟨d, rfl⟩ := Nat.exists_eq_add_of_le' ht
    rw [show 8 * (d + (t + 1)) = 8 * t + (8 * d + 8) by omega, Nat.pow_add,
      Nat.mod_mul_right_div_self, Nat.pow_add, Nat.mod_mul_left_mod]
  rw [← UInt8.toNat_inj, toNat_byteOf, toNat_byteOf, hlow, h, ← hlow]

/-- Its high bytes depend on its high part only. -/
theorem byteOf_congr_high {v w : Nat} {x y : BitVec (8 * w)}
    (h : x.toNat / 2 ^ (8 * v) = y.toNat / 2 ^ (8 * v)) {t : Nat} (ht : v ≤ t) :
    byteOf x t = byteOf y t := by
  obtain ⟨d, rfl⟩ := Nat.exists_eq_add_of_le ht
  rw [← UInt8.toNat_inj, toNat_byteOf, toNat_byteOf, Nat.mul_add, Nat.pow_add,
    ← Nat.div_div_eq_div_mul, ← Nat.div_div_eq_div_mul, h]

section Low

variable {v w j : Nat} {x : BitVec (8 * w)} {y : BitVec (8 * v)}

/-- A number added to a word stays in its low part, if it does not carry. -/
theorem byteOf_add_low (hvw : v ≤ w) (hy : y.toNat = x.toNat % 2 ^ (8 * v))
    (h : y.toNat + j < 2 ^ (8 * v)) (t : Nat) :
    byteOf (x + BitVec.ofNat (8 * w) j) t
      = if t < v then byteOf (y + BitVec.ofNat (8 * v) j) t else byteOf x t := by
  have hpow : 2 ^ (8 * w) = 2 ^ (8 * v) * 2 ^ (8 * (w - v)) := by
    rw [← Nat.pow_add]
    congr 1
    omega
  have hx := x.isLt
  -- the word is its high part, which is kept, and its low part, where the sum stays
  have hsplit : x.toNat + j = 2 ^ (8 * v) * (x.toNat / 2 ^ (8 * v)) + (y.toNat + j) := by
    rw [hy, ← Nat.add_assoc, Nat.div_add_mod]
  have hlt : x.toNat + j < 2 ^ (8 * w) := by
    have hq : x.toNat / 2 ^ (8 * v) < 2 ^ (8 * (w - v)) := Nat.div_lt_of_lt_mul (hpow ▸ hx)
    calc x.toNat + j
        = 2 ^ (8 * v) * (x.toNat / 2 ^ (8 * v)) + (y.toNat + j) := hsplit
      _ < 2 ^ (8 * v) * (x.toNat / 2 ^ (8 * v) + 1) := by
          rw [Nat.mul_add, Nat.mul_one]
          omega
      _ ≤ 2 ^ (8 * w) := by
          rw [hpow]
          exact Nat.mul_le_mul_left _ hq
  have hsum : (x + BitVec.ofNat (8 * w) j).toNat = x.toNat + j := by
    rw [BitVec.toNat_add, BitVec.toNat_ofNat, Nat.add_mod_mod, Nat.mod_eq_of_lt hlt]
  have hsum' : (y + BitVec.ofNat (8 * v) j).toNat = y.toNat + j := by
    rw [BitVec.toNat_add, BitVec.toNat_ofNat, Nat.add_mod_mod, Nat.mod_eq_of_lt h]
  split
  · next ht =>
    refine byteOf_congr_low ?_ ht
    rw [hsum, hsum', hsplit, Nat.mul_add_mod]
  · next ht =>
    refine byteOf_congr_high ?_ (Nat.le_of_not_lt ht)
    rw [hsum, hsplit, Nat.mul_add_div (Nat.two_pow_pos _), Nat.div_eq_of_lt h, Nat.add_zero]

/-- A number subtracted from a word stays in its low part, if it does not borrow. -/
theorem byteOf_sub_low (hy : y.toNat = x.toNat % 2 ^ (8 * v))
    (h : j ≤ y.toNat) (t : Nat) :
    byteOf (x - BitVec.ofNat (8 * w) j) t
      = if t < v then byteOf (y - BitVec.ofNat (8 * v) j) t else byteOf x t := by
  have hle : j ≤ x.toNat := h.trans (hy ▸ Nat.mod_le _ _)
  have hx := x.isLt
  have hylt := y.isLt
  have hdiff : (x - BitVec.ofNat (8 * w) j).toNat = x.toNat - j := by
    rw [BitVec.toNat_sub_of_le] <;>
      simp only [BitVec.le_def, BitVec.toNat_ofNat, Nat.mod_eq_of_lt (hle.trans_lt hx)]
    exact hle
  have hdiff' : (y - BitVec.ofNat (8 * v) j).toNat = y.toNat - j := by
    rw [BitVec.toNat_sub_of_le] <;>
      simp only [BitVec.le_def, BitVec.toNat_ofNat, Nat.mod_eq_of_lt (h.trans_lt hylt)]
    exact h
  -- the same split, with the difference in the low part
  have hsplit : x.toNat - j = 2 ^ (8 * v) * (x.toNat / 2 ^ (8 * v)) + (y.toNat - j) := by
    have hmod := Nat.div_add_mod x.toNat (2 ^ (8 * v))
    rw [← hy] at hmod
    omega
  split
  · next ht =>
    refine byteOf_congr_low ?_ ht
    rw [hdiff, hdiff', hsplit, Nat.mul_add_mod]
  · next ht =>
    refine byteOf_congr_high ?_ (Nat.le_of_not_lt ht)
    rw [hdiff, hsplit, Nat.mul_add_div (Nat.two_pow_pos _),
      Nat.div_eq_of_lt ((Nat.sub_le _ _).trans_lt hylt), Nat.add_zero]

end Low

/-! ### Parts of a word -/

/-- The `v` bytes of a word from byte `off` on. -/
def part (v off : Nat) {w : Nat} (x : BitVec (8 * w)) : BitVec (8 * v) :=
  x.extractLsb' (8 * off) (8 * v)

theorem byteOf_part {v off w : Nat} (x : BitVec (8 * w)) {t : Nat} (ht : t < v) :
    byteOf (part v off x) t = byteOf x (off + t) := by
  refine byte_ext fun k hk => ?_
  show ((part v off x).extractLsb' (8 * t) 8).getLsbD k
    = (x.extractLsb' (8 * (off + t)) 8).getLsbD k
  rw [part, BitVec.getLsbD_extractLsb', BitVec.getLsbD_extractLsb', BitVec.getLsbD_extractLsb',
    decide_eq_true (show 8 * t + k < 8 * v by omega), Bool.true_and,
    show 8 * off + (8 * t + k) = 8 * (off + t) + k by omega]

theorem word_ext {w : Nat} {x y : BitVec (8 * w)} (h : ∀ t, t < w → byteOf x t = byteOf y t) :
    x = y := by
  rw [← loadBytes_byteOf x, ← loadBytes_byteOf y]
  exact loadBytes_congr h

section Window

variable {l : List UInt8} {i v w off : Nat}

theorem part_wordAt (hoff : off + v ≤ w) : part v off (wordAt w l i) = wordAt v l (i + off) := by
  refine word_ext fun t ht => ?_
  rw [byteOf_part _ ht, byteOf_wordAt _ _ (by omega), byteOf_wordAt _ _ ht, Nat.add_assoc]

/-- A word that differs from what stood there in one part only is that part stored. -/
theorem overwrite_part (hi : i + w ≤ l.length) (hoff : off + v ≤ w) {x : BitVec (8 * w)}
    (h : ∀ t, t < w → ¬(off ≤ t ∧ t < off + v) → byteOf x t = byteOf (wordAt w l i) t) :
    overwrite l i (wordBytes x) = overwrite l (i + off) (wordBytes (part v off x)) := by
  refine (overwrite_word_eq_iff hi hoff x _).mpr fun t ht => ?_
  by_cases hin : off ≤ t ∧ t < off + v
  · rw [if_pos hin, byteOf_part _ (by omega), Nat.add_sub_cancel' hin.1]
  · rw [if_neg hin, h t ht hin, byteOf_wordAt _ _ ht]

theorem word_eq_of_overwrite_eq (hi : i + w ≤ l.length) {x y : BitVec (8 * w)}
    (h : overwrite l i (wordBytes x) = overwrite l i (wordBytes y)) : x = y := by
  rw [← wordAt_overwrite hi x, h, wordAt_overwrite hi y]

/-- A change of the buffer as a number, whatever the window it was made through. -/
theorem change_eq {j : Nat} (hi : i + w ≤ l.length) (hj : j + v ≤ l.length)
    {x : BitVec (8 * w)} {y : BitVec (8 * v)}
    (h : overwrite l i (wordBytes x) = overwrite l j (wordBytes y)) :
    (wordAt w l i ^^^ x).toNat * 2 ^ (8 * i) = (wordAt v l j ^^^ y).toNat * 2 ^ (8 * j) := by
  -- the whole buffer is one more window
  let whole := wordAt l.length (overwrite l i (wordBytes x)) 0
  have hwhole : overwrite l 0 (wordBytes whole) = overwrite l i (wordBytes x) := by
    have hlen : (overwrite l i (wordBytes x)).length = l.length :=
      length_overwrite (by rwa [length_wordBytes])
    rw [show whole = wordAt l.length (overwrite l i (wordBytes x)) 0 from rfl,
      wordBytes_wordAt (by rw [hlen, Nat.zero_add]), List.drop_zero,
      List.take_of_length_le hlen.le]
    generalize overwrite l i (wordBytes x) = c at hlen
    rw [overwrite, Nat.zero_add, List.take_zero, List.nil_append,
      List.drop_of_length_le hlen.ge, List.append_nil]
  have hfirst := toNat_xor_of_overwrite_eq (i := 0) (by rw [Nat.zero_add]) hi
    (by rwa [Nat.zero_add])
  have hsecond := toNat_xor_of_overwrite_eq (i := 0) (by rw [Nat.zero_add]) hj
    (by rw [Nat.zero_add, hwhole, h])
  rw [Nat.zero_add] at hfirst hsecond
  rw [← hfirst, hsecond]

end Window

/-- A run starts and ends in one place. -/
theorem run_unique {m n k n' k' : Nat} {d : BitVec m} (hn : 0 < n) (hn' : 0 < n')
    (h : d.toNat = (2 ^ n - 1) * 2 ^ k) (h' : d.toNat = (2 ^ n' - 1) * 2 ^ k') :
    n = n' ∧ k = k' := by
  have hbit : ∀ b, (k ≤ b ∧ b < k + n) ↔ (k' ≤ b ∧ b < k' + n') := by
    intro b
    have hb := (getLsbD_of_run h b).symm.trans (getLsbD_of_run h' b)
    exact decide_eq_decide.mp hb
  have hfirst := (hbit k).mp (by omega)
  have hfirst' := (hbit k').mpr (by omega)
  have hlast := (hbit (k + n - 1)).mp (by omega)
  have hlast' := (hbit (k' + n' - 1)).mpr (by omega)
  omega

end DistFuzz.Lib
