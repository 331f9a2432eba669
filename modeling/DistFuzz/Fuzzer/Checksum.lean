import DistFuzz.CoverageMap
import DistFuzz.Lib.Mixing
import DistFuzz.Lib.Words

/-!
# The checksum of a trace (fuzz/fuzzer/old/TestRunning.cpp:65–91)

`hash32` folds a trace map, eight bytes at a time, into a word of 64 bits and returns the
lower half of it. The fuzzer takes two traces for the same if their checksums are: when it
decides which bytes of a seed have an effect, where tokens begin and end, and whether a
trimmed seed may stay.

- `hashRound`, `hashEnd`, `hash32`: the function.
- `injective_hashWord`: the 64-bit word tells apart any two traces that differ in one word.
- `checksum_balanced`: what is left of that in the 32 bits that are returned.
-/

namespace DistFuzz.Fuzzer

open DistFuzz.Lib

/-- A turn of the loop. -/
def hashRound (h1 k1 : BitVec 64) : BitVec 64 :=
  let k1 := k1 * 0x87c37b91114253d5#64
  let k1 := k1.rotateLeft 31
  let k1 := k1 * 0x4cf5ad432745937f#64
  let h1 := h1 ^^^ k1
  let h1 := h1.rotateLeft 27
  h1 * 5#64 + 0x52dce729#64

/-- What follows the loop. -/
def hashEnd (h1 : BitVec 64) : BitVec 64 :=
  let h1 := h1 ^^^ h1 >>> 33
  let h1 := h1 * 0xff51afd7ed558ccd#64
  let h1 := h1 ^^^ h1 >>> 33
  let h1 := h1 * 0xc4ceb9fe1a85ec53#64
  h1 ^^^ h1 >>> 33

/-- The words of a map that the loop reads. -/
def keyWords {n : Nat} (key : ByteMap n) (len : UInt32) : List (BitVec 64) :=
  (List.range (len >>> 3).toNat).map fun k => key.loadWord 8 k

/-- `hash32`, before the result is cut to 32 bits. `seed ^ len` is computed in 32. -/
def hashWord {n : Nat} (key : ByteMap n) (len seed : UInt32) : BitVec 64 :=
  hashEnd ((keyWords key len).foldl hashRound ((seed ^^^ len).toBitVec.setWidth 64))

/-- `hash32`. -/
def hash32 {n : Nat} (key : ByteMap n) (len seed : UInt32) : UInt32 :=
  ⟨(hashWord key len seed).setWidth 32⟩

/-- `HASH_CONST`. -/
def hashConst : UInt32 := 0xa5b35705

/-! ### Nothing is lost before the end -/

/-- A turn of the loop, in the word that is read. -/
theorem injective_hashRound_key (h1 : BitVec 64) : Function.Injective (hashRound h1) := by
  have hfirst : Function.Injective (· * 0x87c37b91114253d5#64) :=
    injective_mul (d := 0xa98409e882ce4d7d#64) (by decide)
  have hsecond : Function.Injective (· * 0x4cf5ad432745937f#64) :=
    injective_mul (d := 0xa81e14edd9de2c7f#64) (by decide)
  have hfive : Function.Injective (· * 5#64) :=
    injective_mul (d := 0xcccccccccccccccd#64) (by decide)
  exact (add_left_injective _).comp (hfive.comp ((injective_rotateLeft 27).comp
    ((injective_xor h1).comp (hsecond.comp ((injective_rotateLeft 31).comp hfirst)))))

/-- A turn of the loop, in the word it starts with. -/
theorem injective_hashRound_state (k1 : BitVec 64) : Function.Injective (hashRound · k1) := by
  have hxor : Function.Injective
      (· ^^^ (k1 * 0x87c37b91114253d5#64).rotateLeft 31 * 0x4cf5ad432745937f#64) :=
    fun _ _ h => (BitVec.xor_left_inj _).mp h
  have hfive : Function.Injective (· * 5#64) :=
    injective_mul (d := 0xcccccccccccccccd#64) (by decide)
  exact (add_left_injective _).comp (hfive.comp ((injective_rotateLeft 27).comp hxor))

theorem injective_foldl_hashRound (ks : List (BitVec 64)) :
    Function.Injective fun h1 => ks.foldl hashRound h1 := by
  induction ks with
  | nil => exact Function.injective_id
  | cons k ks ih => exact ih.comp (injective_hashRound_state k)

theorem injective_hashEnd : Function.Injective hashEnd := by
  have hfirst : Function.Injective (· * 0xff51afd7ed558ccd#64) :=
    injective_mul (d := 0x4f74430c22a54005#64) (by decide)
  have hsecond : Function.Injective (· * 0xc4ceb9fe1a85ec53#64) :=
    injective_mul (d := 0x9cb4b2f8129337db#64) (by decide)
  have hshift : Function.Injective fun x : BitVec 64 => x ^^^ x >>> 33 :=
    injective_xorShift (by decide)
  exact hshift.comp (hsecond.comp (hshift.comp (hfirst.comp hshift)))

/-! ### One word of the map -/

section Word

variable {n : Nat} (m : ByteMap n)

theorem loadWord_storeWord_self {w k : Nat} (hfits : w * (k + 1) ≤ n) (x : BitVec (8 * w)) :
    (m.storeWord w k x).loadWord w k = x := by
  rw [ByteMap.loadWord]
  refine (loadBytes_congr fun j hj => ?_).trans (loadBytes_byteOf x)
  rw [Nat.mul_succ] at hfits
  have hlt : w * k + j < n := by omega
  have hword : (w * k + j) / w = k := by
    rw [Nat.mul_add_div (by omega), Nat.div_eq_of_lt hj, Nat.add_zero]
  rw [ByteMap.byteAt, dif_pos hlt, ByteMap.storeWord_of_eq hword, Nat.mul_add_mod,
    Nat.mod_eq_of_lt hj]

theorem loadWord_storeWord_other {w k i : Nat} (hi : i ≠ k) (x : BitVec (8 * w)) :
    (m.storeWord w k x).loadWord w i = m.loadWord w i := by
  rw [ByteMap.loadWord, ByteMap.loadWord]
  refine loadBytes_congr fun j hj => ?_
  have hword : (w * i + j) / w = i := by
    rw [Nat.mul_add_div (by omega), Nat.div_eq_of_lt hj, Nat.add_zero]
  rw [ByteMap.byteAt, ByteMap.byteAt]
  split
  · exact ByteMap.storeWord_of_ne (by rw [hword]; exact hi)
  · rfl

/-- A word stored in the map is one the loop reads in its place. -/
theorem keyWords_storeWord {len : UInt32} (hlen : len.toNat ≤ n) {k : Nat}
    (hk : k < (len >>> 3).toNat) (x : BitVec 64) :
    keyWords (m.storeWord 8 k x) len = (keyWords m len).set k x := by
  have hfits : 8 * (k + 1) ≤ n := by
    have hshift : (len >>> 3).toNat = len.toNat / 8 := by
      rw [UInt32.toNat_shiftRight]
      exact Nat.shiftRight_eq_div_pow len.toNat 3
    omega
  refine List.ext_getElem (by simp [keyWords]) fun i hi hi' => ?_
  by_cases heq : i = k
  · subst heq
    simp [keyWords, loadWord_storeWord_self m hfits]
  · rw [List.getElem_set_ne (Ne.symm heq)]
    simp [keyWords, loadWord_storeWord_other m heq]

/-- The word before the cut tells apart any two contents of one word of the map. -/
theorem injective_hashWord {len : UInt32} (hlen : len.toNat ≤ n) (seed : UInt32) {k : Nat}
    (hk : k < (len >>> 3).toNat) :
    Function.Injective fun x : BitVec 64 => hashWord (m.storeWord 8 k x) len seed := by
  have hlt : k < (keyWords m len).length := by
    rw [keyWords, List.length_map, List.length_range]
    exact hk
  have hsplit : (fun x : BitVec 64 => hashWord (m.storeWord 8 k x) len seed) = fun x =>
      hashEnd (((keyWords m len).drop (k + 1)).foldl hashRound
        (hashRound (((keyWords m len).take k).foldl hashRound
          ((seed ^^^ len).toBitVec.setWidth 64)) x)) := by
    funext x
    rw [hashWord, keyWords_storeWord m hlen hk, List.set_eq_take_append_cons_drop, if_pos hlt,
      List.foldl_append, List.foldl_cons]
  rw [hsplit]
  exact injective_hashEnd.comp
    ((injective_foldl_hashRound _).comp (injective_hashRound_key _))

end Word

/-- **The checksum.** Whatever the rest of a trace is, of the `2 ^ 64` contents of any eight
bytes of it that are hashed together, exactly `2 ^ 32` have a given checksum: no checksum is
preferred, none is missed, and a trace that differs from another there passes for the same
with a chance of less than one in `2 ^ 32`. -/
theorem checksum_balanced {n : Nat} (m : ByteMap n) {len : UInt32} (hlen : len.toNat ≤ n)
    (seed : UInt32) {k : Nat} (hk : k < (len >>> 3).toNat) (c : UInt32) :
    Nat.card {x : BitVec 64 // hash32 (m.storeWord 8 k x) len seed = c} = 2 ^ 32 := by
  have hcount := card_setWidth (a := 32) (b := 32) (injective_hashWord m hlen seed hk) c.toBitVec
  rw [← hcount]
  refine Nat.card_congr (Equiv.subtypeEquivRight fun x => ?_)
  rw [hash32, ← UInt32.toBitVec_inj]

/-- The checksum of a trace map, in its second word. -/
theorem checksum_balanced_trace :
    Nat.card {x : BitVec 64 // hash32 (ByteMap.storeWord 8 (fun _ => 0 : CovMap) 1 x)
      (UInt32.ofNat mapSize) hashConst = 0} = 2 ^ 32 :=
  checksum_balanced (fun _ => 0 : CovMap) (by decide) hashConst (by decide) 0

end DistFuzz.Fuzzer
