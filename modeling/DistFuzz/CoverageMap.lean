import DistFuzz.Lib.ByteMap
import Mathlib.Data.List.Count
import Mathlib.Data.UInt

/-!
# The shared coverage map

The map lives in shared memory: the injectors of all node processes of one
execution increment its cells, the fuzzer reads it afterwards. Its size is
`MAP_SIZE` on the fuzzer's side (constants.h) and `FUZZ_COVERAGE_MAP_SIZE` on
the injectors' side (dst_fuzz.c, dst_fuzz.cc), both `1u << 23`.

- `mapSize`, `CovMap`: the size and the map.
- `toNat_left`, `toNat_right`: the neighbours of an index, as the 64-bit arithmetic
  of the injectors has them; to the left of `0` lies the last of all addresses.
- `incr`: `fuzz_coverage_map[hash_index]++`, an 8-bit counter that wraps.
- `foldl_incr_apply`: a cell after any list of increments is its start value
  plus the number of its own increments, so increments commute.
-/

namespace DistFuzz

open DistFuzz.Lib

/-- `MAP_SIZE` (constants.h), `FUZZ_COVERAGE_MAP_SIZE` (dst_fuzz.c:31). -/
def mapSize : Nat := 2 ^ 23

theorem mapSize_pos : 0 < mapSize := by
  rw [mapSize]
  omega

theorem one_lt_mapSize : 1 < mapSize := by
  rw [mapSize]
  omega

theorem eight_dvd_mapSize : 8 ∣ mapSize := ⟨2 ^ 20, rfl⟩

theorem mapSize_lt : mapSize < 2 ^ 32 := by
  rw [mapSize]
  omega

/-- A coverage map: one byte for each index. -/
abbrev CovMap := ByteMap mapSize

/-- `fuzz_coverage_map[i] > 0`. -/
theorem byte_pos_iff {x : UInt8} : 0 < x ↔ x ≠ 0 := by
  rw [UInt8.lt_iff_toNat_lt, Ne, ← UInt8.toNat_inj]
  exact Nat.pos_iff_ne_zero

/-! ### Neighbours of an index -/

theorem toNat_left {hash : UInt64} (h : hash ≠ 0) : (hash - 1).toNat = hash.toNat - 1 := by
  have hpos : 0 < hash.toNat := Nat.pos_of_ne_zero fun h0 => h (UInt64.toNat_inj.mp h0)
  exact UInt64.toNat_sub_of_le hash 1 (UInt64.le_iff_toNat_le.mpr hpos)

theorem mapSize_le_left_of_zero : mapSize ≤ ((0 : UInt64) - 1).toNat := by decide

theorem toNat_right {hash : UInt64} (h : hash.toNat < mapSize) :
    (hash + 1).toNat = hash.toNat + 1 := by
  have hsize := mapSize_lt
  rw [UInt64.toNat_add]
  exact Nat.mod_eq_of_lt (show hash.toNat + 1 < 2 ^ 64 by omega)

/-- The remainder leaves an index as it is. -/
theorem mod_mapSize {i : UInt64} (h : i.toNat < mapSize) : i % UInt64.ofNat mapSize = i := by
  refine UInt64.toNat_inj.mp ?_
  rw [UInt64.toNat_mod]
  exact Nat.mod_eq_of_lt h

/-- A hash is an index of the map. -/
theorem toNat_mod_lt (x : UInt64) : (x % UInt64.ofNat mapSize).toNat < mapSize := by
  rw [UInt64.toNat_mod]
  exact Nat.mod_lt _ mapSize_pos

/-- The comparison of a 64-bit index with the size. -/
theorem lt_ofNat_mapSize {i : UInt64} : i < UInt64.ofNat mapSize ↔ i.toNat < mapSize := by
  rw [UInt64.lt_iff_toNat_lt, UInt64.toNat_ofNat_of_lt' (show mapSize < 2 ^ 64 by decide)]

/-! ### Increments -/

/-- `fuzz_coverage_map[i]++`. -/
def incr (m : CovMap) (i : Fin mapSize) : CovMap :=
  fun j => if j = i then m j + 1 else m j

/-- A cell counts its own increments, modulo 256. -/
theorem foldl_incr_apply (m : CovMap) (hits : List (Fin mapSize)) (j : Fin mapSize) :
    hits.foldl incr m j = m j + UInt8.ofNat (hits.count j) := by
  induction hits generalizing m with
  | nil => exact (UInt8.add_zero _).symm
  | cons i hits ih =>
    rw [List.foldl_cons, ih, incr]
    by_cases hij : j = i
    · subst hij
      rw [if_pos rfl, List.count_cons_self, UInt8.ofNat_add, UInt8.add_assoc,
        UInt8.add_comm 1]
      rfl
    · rw [if_neg hij, List.count_cons_of_ne (Ne.symm hij)]

end DistFuzz
