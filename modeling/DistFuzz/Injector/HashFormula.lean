import DistFuzz.Injector.Coverage
import Mathlib.Data.Nat.ModEq
import Mathlib.Tactic.Ring

/-!
# The hash as a formula (strace/src/dst_fuzz.c:113–143)

`get_hash_value` narrows a 64-bit counter to an `int`, adds a product taken in
`uint32_t`, widens the sum to 64 bits, shifts it and takes the remainder by the size of
the map. Each of these cuts something off, but never anything below bit 23.

- `hashCounter`, `hashNode`: what the mode makes of the counters and of `NODE_ID`.
- `toNat_hash`: the shift and the remainder; `toNat_getHashValue_node`: the sum before.
- `hash_formula`: the hash over the natural numbers, and that it tells apart as many
  consecutive counter values as there are cells to reach.
-/

namespace DistFuzz.Injector

/-- The counter `index` is taken from. -/
def hashCounter (env : HashEnv) (eventIndex globalIndex : UInt64) : UInt64 :=
  if env.noReduction then globalIndex else eventIndex

/-- `node_id`. -/
def hashNode (env : HashEnv) : Int32 := if env.noReduction then env.nodeId else 0

/-- A shifted sum below the size of the map: nothing above bit 23 counts. -/
theorem toNat_hash (x : UInt64) (faultInjected : Bool) :
    ((x <<< (if faultInjected then 1 else 0)) % UInt64.ofNat mapSize).toNat
      = x.toNat * (if faultInjected then 2 else 1) % 2 ^ 23 := by
  rw [UInt64.toNat_mod, UInt64.toNat_ofNat_of_lt' (show mapSize < 2 ^ 64 by decide),
    UInt64.toNat_shiftLeft]
  cases faultInjected with
  | false =>
    simp only [Bool.false_eq_true, if_false, mapSize]
    simp only [UInt64.toNat_zero, Nat.zero_mod, Nat.shiftLeft_zero, Nat.mul_one]
    omega
  | true =>
    simp only [if_true, mapSize]
    simp only [UInt64.toNat_one, Nat.reduceMod, Nat.shiftLeft_eq, Nat.pow_one]
    omega

/-- The sum in 32 and in 64 bits leaves the remainder of the sum. -/
theorem toNat_sum_modEq (counter : UInt64) (syscallNo : UInt32) (length node : UInt64) :
    ((counter.toUInt32 + syscallNo * 10).toUInt64 + length + node + 0).toNat
      ≡ counter.toNat + 10 * syscallNo.toNat + length.toNat + node.toNat [MOD 2 ^ 23] := by
  rw [Nat.ModEq]
  simp only [UInt64.toNat_add, UInt32.toNat_toUInt64, UInt32.toNat_add, UInt32.toNat_mul,
    UInt64.toNat_toUInt32, show (0 : UInt64).toNat = 0 from rfl,
    show (10 : UInt32).toNat = 10 from rfl]
  omega

/-- The counter is cut to 32 bits and the product taken in 32, which the remainder does
not see. -/
theorem toNat_getHashValue_node (env : HashEnv) (eventIndex globalIndex : UInt64)
    (e : Recorded) :
    (getHashValue env eventIndex globalIndex e).toNat
      = ((hashCounter env eventIndex globalIndex).toNat + 10 * e.syscallNo.toNat
          + e.length.toNat + (hashNode env * 100).toInt64.toUInt64.toNat)
        * (if e.faultInjected then 2 else 1) % 2 ^ 23 := by
  have hcut : (if env.noReduction then globalIndex.toUInt32 else eventIndex.toUInt32)
      = (hashCounter env eventIndex globalIndex).toUInt32 := by
    rw [hashCounter]
    split <;> rfl
  rw [getHashValue, hcut, toNat_hash]
  exact (toNat_sum_modEq _ e.syscallNo e.length _).mul_right _

/-- In reduction mode the node is not counted. -/
theorem toNat_getHashValue {env : HashEnv} (henv : env.noReduction = false)
    (eventIndex globalIndex : UInt64) (e : Recorded) :
    (getHashValue env eventIndex globalIndex e).toNat
      = (eventIndex.toNat + 10 * e.syscallNo.toNat + e.length.toNat)
        * (if e.faultInjected then 2 else 1) % 2 ^ 23 := by
  have hcounter : hashCounter env eventIndex globalIndex = eventIndex := by
    rw [hashCounter, henv]
    rfl
  have hnode : (hashNode env * 100).toInt64.toUInt64.toNat = 0 := by
    rw [hashNode, henv]
    rfl
  rw [toNat_getHashValue_node, hcounter, hnode, Nat.add_zero]

/-! ### The node -/

/-- The product of a node id of this size is taken in an `int` without overflow. -/
theorem toNat_node {n : Int32} (h0 : 0 ≤ n.toInt) (h : n.toInt ≤ 10 ^ 6) :
    (n * 100).toInt64.toUInt64.toNat = 100 * n.toInt.toNat := by
  have hprod : (n * 100).toInt = n.toInt * 100 := by
    rw [Int32.toInt_mul]
    exact Int.bmod_eq_of_le_mul_two (by show _ ≤ n.toInt * 100 * 2; omega)
      (by show n.toInt * 100 * 2 < _; omega)
  have hle : (0 : Int64) ≤ (n * 100).toInt64 := by
    rw [Int64.le_iff_toInt_le, Int32.toInt_toInt64, hprod]
    show 0 ≤ n.toInt * 100
    omega
  rw [Int64.toNat_toUInt64_of_le hle, Int64.toNatClampNeg, Int32.toInt_toInt64, hprod]
  omega

/-- `NODE_ID` is at most a million, so that a hundred times it is an `int`. -/
def NodeIdFits (env : HashEnv) : Prop := 0 ≤ env.nodeId.toInt ∧ env.nodeId.toInt ≤ 10 ^ 6

theorem NodeIdFits.toNat_node {env : HashEnv} (h : NodeIdFits env) :
    (hashNode env * 100).toInt64.toUInt64.toNat = 100 * (hashNode env).toInt.toNat := by
  rw [hashNode]
  split
  · exact Injector.toNat_node h.1 h.2
  · rfl

/-! ### Consecutive counters -/

/-- Summands this small are told apart by the remainder. -/
theorem hash_cancel {x y a b k : Nat} (hk : 0 < k) (ha : a * k < 2 ^ 23) (hb : b * k < 2 ^ 23) :
    (x + a + y) * k % 2 ^ 23 = (x + b + y) * k % 2 ^ 23 ↔ a = b := by
  have hsplit (c : Nat) : (x + c + y) * k = (x + y) * k + c * k := by ring
  constructor
  · intro h
    rw [hsplit, hsplit] at h
    have hmod : a * k ≡ b * k [MOD 2 ^ 23] := Nat.ModEq.add_left_cancel' _ h
    rw [Nat.ModEq, Nat.mod_eq_of_lt ha, Nat.mod_eq_of_lt hb] at hmod
    exact Nat.eq_of_mul_eq_mul_right hk hmod
  · rintro rfl
    rfl

/-- A counter that wraps around stays where it was below bit 23. -/
theorem toNat_counter_modEq (start : UInt64) (j : Nat) :
    (start + UInt64.ofNat j).toNat ≡ start.toNat + j [MOD 2 ^ 23] := by
  rw [Nat.ModEq, UInt64.toNat_add, UInt64.toNat_ofNat']
  omega

/-- The counters from `start` on, as long as the shifted distance stays below the size of
the map, have different hashes. -/
theorem hash_injective (env : HashEnv) (e : Recorded) (start : UInt64)
    {eventIndex eventIndex' globalIndex globalIndex' : UInt64} {j k : Nat}
    (hj : j < 2 ^ (23 - e.faultInjected.toNat)) (hk : k < 2 ^ (23 - e.faultInjected.toNat))
    (hcounter : hashCounter env eventIndex globalIndex = start + UInt64.ofNat j)
    (hcounter' : hashCounter env eventIndex' globalIndex' = start + UInt64.ofNat k)
    (heq : getHashValue env eventIndex globalIndex e
      = getHashValue env eventIndex' globalIndex' e) : j = k := by
  -- the shift by the fault flag doubles the distance at most
  have hfactor : 0 < (if e.faultInjected then 2 else 1) ∧
      j * (if e.faultInjected then 2 else 1) < 2 ^ 23 ∧
      k * (if e.faultInjected then 2 else 1) < 2 ^ 23 := by
    cases hf : e.faultInjected with
    | false =>
      rw [hf] at hj hk
      exact ⟨Nat.one_pos, by simpa using hj, by simpa using hk⟩
    | true =>
      rw [hf] at hj hk
      simp only [Bool.toNat_true, if_true] at hj hk ⊢
      omega
  obtain ⟨hpos, hj, hk⟩ := hfactor
  have hshift (i : Nat) (counter : UInt64) (h : counter = start + UInt64.ofNat i) (rest m : Nat) :
      (counter.toNat + rest) * m ≡ (start.toNat + i + rest) * m [MOD 2 ^ 23] := by
    subst h
    exact ((toNat_counter_modEq start i).add_right rest).mul_right m
  have hnat := congrArg UInt64.toNat heq
  rw [toNat_getHashValue_node, toNat_getHashValue_node] at hnat
  simp only [Nat.add_assoc (hashCounter ..).toNat] at hnat
  -- all but the counters is the same on both sides and cancels
  have hmod := ((hshift j _ hcounter _ _).symm.trans hnat).trans (hshift k _ hcounter' _ _)
  exact (hash_cancel hpos hj hk).mp hmod

/-- **The hash over the natural numbers.** For every value of the counters, every system
call, length and fault flag, and every node id up to a million, no truncation on the way
changes the remainder: the hash is that of the exact sum. So it is an index of the map,
and with everything but the counter fixed it is injective on any `2 ^ 23` consecutive
values of the counter, `2 ^ 22` if a fault was injected, across the end of its range
too. -/
theorem hash_formula (env : HashEnv) (hnode : NodeIdFits env) (e : Recorded) :
    (∀ eventIndex globalIndex : UInt64,
      (getHashValue env eventIndex globalIndex e).toNat
        = ((hashCounter env eventIndex globalIndex).toNat + 10 * e.syscallNo.toNat
            + e.length.toNat + 100 * (hashNode env).toInt.toNat)
          * 2 ^ e.faultInjected.toNat % 2 ^ 23 ∧
      (getHashValue env eventIndex globalIndex e).toNat < mapSize) ∧
    ∀ (start eventIndex eventIndex' globalIndex globalIndex' : UInt64) (j k : Nat),
      j < 2 ^ (23 - e.faultInjected.toNat) → k < 2 ^ (23 - e.faultInjected.toNat) →
      hashCounter env eventIndex globalIndex = start + UInt64.ofNat j →
      hashCounter env eventIndex' globalIndex' = start + UInt64.ofNat k →
      getHashValue env eventIndex globalIndex e = getHashValue env eventIndex' globalIndex' e →
      j = k := by
  refine ⟨fun eventIndex globalIndex => ⟨?_, getHashValue_lt env eventIndex globalIndex e⟩, ?_⟩
  · have hpow : (if e.faultInjected then 2 else 1) = 2 ^ e.faultInjected.toNat := by
      cases e.faultInjected <;> rfl
    rw [toNat_getHashValue_node, hnode.toNat_node, hpow]
  · intro start eventIndex eventIndex' globalIndex globalIndex' j k hj hk hcounter hcounter' heq
    exact hash_injective env e start hj hk hcounter hcounter' heq

/-- Node 7 without reduction, at a counter above `2 ^ 63` with a length close to `2 ^ 64`. -/
theorem hash_formula_large :
    NodeIdFits ⟨true, 7⟩ ∧
      (getHashValue ⟨true, 7⟩ 0 0x8000000000000005 ⟨44, 0xFFFFFFFFFFFFFFFF, true⟩).toNat
        = (0x8000000000000005 + 10 * 44 + 0xFFFFFFFFFFFFFFFF + 100 * 7) * 2 % 2 ^ 23 := by
  have hnode : NodeIdFits ⟨true, 7⟩ := ⟨by decide, by decide⟩
  exact ⟨hnode, ((hash_formula _ hnode ⟨44, 0xFFFFFFFFFFFFFFFF, true⟩).1 0 0x8000000000000005).1⟩

end DistFuzz.Injector
