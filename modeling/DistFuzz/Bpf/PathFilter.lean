import DistFuzz.Bpf.Injector

/-!
# Which strings `str_contains` finds (bpf/utils.h:35–79)

`str_contains` looks for a pattern in a buffer that may hold a shorter string and
whatever comes behind its NUL. Its loop leaves out the last position at which the
pattern fits, and the masks for the verifier drop the upper bits of a size.

- `strEqualIn`, `strContainsIn`: the functions on a buffer and a pattern of their own
  lengths; none if they read outside of them. `strContainsIn_eq`: they do not, and they
  return what the functions on memory return.
- `Occurs`: the pattern is at this position, with no NUL before it.
- `Found`: the positions that end the loop; `Occurs.found`, `found_iff_occurs`.
- `str_contains_iff`: when the result is what it should be, for patterns of every size.
- `missed_at_end`: for every pattern there is a buffer of every size in which it is
  overlooked.
-/

namespace DistFuzz.Bpf

/-! ### The functions with their accesses -/

/-- The loop of `str_equal` from `cs = str + off` on, with `left` turns to go. -/
def strEqualLoopIn (str pattern : List UInt8) (off : Nat) : (left len : Nat) → Option Bool
  | 0, _ => some true
  | left + 1, len => do
    let c1 ← str[off + len]?
    let c2 ← pattern[len]?
    if c1 ≠ c2 then return false
    else if c1 = 0 then return true
    else strEqualLoopIn str pattern off left (len + 1)

/-- `str_equal(str + off, pattern, size)`. -/
def strEqualIn (str pattern : List UInt8) (off size : Nat) : Option Bool :=
  strEqualLoopIn str pattern off (size &&& 0xffff) 0

/-- The loop of `str_contains` with `left` turns to go. -/
def strContainsLoopIn (str pattern : List UInt8) (patternSize : Nat) :
    (left index : Nat) → Option Bool
  | 0, _ => some false
  | left + 1, index => do
    let c1 ← str[index]?
    if c1 = 0 then return false
    else if ← strEqualIn str pattern index patternSize then return true
    else strContainsLoopIn str pattern patternSize left (index + 1)

/-- `str_contains` with the lengths of the two as their sizes. -/
def strContainsIn (str pattern : List UInt8) : Option Bool :=
  strContainsLoopIn str pattern pattern.length ((str.length - pattern.length) &&& 0xffff) 0

/-- The memory at a buffer. What comes behind it is not read. -/
abbrev inMemory (l : List UInt8) : Memory := cString l []

theorem getElem?_of_lt {l : List UInt8} {i : Nat} (h : i < l.length) :
    l[i]? = some (inMemory l i) := by
  rw [inMemory, cString_of_lt h, List.getElem?_eq_getElem h]

theorem strEqualLoopIn_eq {str pattern : List UInt8} {off left len : Nat}
    (hstr : off + len + left ≤ str.length) (hpattern : len + left ≤ pattern.length) :
    strEqualLoopIn str pattern off left len
      = some (strEqualLoop (fun i => inMemory str (off + i)) (inMemory pattern) left len) := by
  induction left generalizing len with
  | zero => rfl
  | succ left ih =>
    have hrest := ih (show off + (len + 1) + left ≤ str.length by omega)
      (show len + 1 + left ≤ pattern.length by omega)
    rw [strEqualLoopIn, strEqualLoop, getElem?_of_lt (show off + len < str.length by omega),
      getElem?_of_lt (show len < pattern.length by omega), hrest]
    simp only [Option.bind_eq_bind, Option.bind_some, Option.pure_def]
    split_ifs <;> rfl

/-- A mask only makes a size smaller. -/
theorem and_mask_le (n : Nat) : n &&& 0xffff ≤ n := Nat.and_le_left

theorem strEqualIn_eq {str pattern : List UInt8} {off : Nat}
    (h : off + pattern.length ≤ str.length) :
    strEqualIn str pattern off pattern.length
      = some (strEqual (fun i => inMemory str (off + i)) (inMemory pattern) pattern.length) := by
  have hmask := and_mask_le pattern.length
  exact strEqualLoopIn_eq (by omega) (by omega)

theorem strContainsLoopIn_eq {str pattern : List UInt8} {left index : Nat}
    (h : index + left + pattern.length ≤ str.length) (hpos : 1 ≤ pattern.length) :
    strContainsLoopIn str pattern pattern.length left index
      = some (strContainsLoop (inMemory str) (inMemory pattern) pattern.length left index) := by
  induction left generalizing index with
  | zero => rfl
  | succ left ih =>
    have hrest := ih (show index + 1 + left + pattern.length ≤ str.length by omega)
    rw [strContainsLoopIn, strContainsLoop, getElem?_of_lt (show index < str.length by omega),
      strEqualIn_eq (show index + pattern.length ≤ str.length by omega), hrest]
    simp only [Option.bind_eq_bind, Option.bind_some, Option.pure_def]
    split_ifs <;> rfl

/-- No byte outside of the buffer and the pattern is read. -/
theorem strContainsIn_eq {str pattern : List UInt8} (hpos : 1 ≤ pattern.length)
    (hle : pattern.length ≤ str.length) :
    strContainsIn str pattern
      = some (strContains (inMemory str) (inMemory pattern) str.length pattern.length) := by
  have hmask := and_mask_le (str.length - pattern.length)
  exact strContainsLoopIn_eq (by omega) hpos

/-! ### What is there, and what is found -/

/-- The pattern is at position `p` of the buffer, and no NUL is before it. -/
structure Occurs (str pattern : List UInt8) (p : Nat) : Prop where
  fits : p + pattern.length ≤ str.length
  here : (str.drop p).take pattern.length = pattern
  inside : 0 ∉ str.take p

/-- Position `p` ends the loop with `true`. -/
structure Found (str pattern : List UInt8) (p : Nat) : Prop where
  lt : p + pattern.length < str.length
  here : (str.drop p).take (pattern.length % 2 ^ 16) = pattern.take (pattern.length % 2 ^ 16)
  inside : 0 ∉ str.take (p + 1)

theorem not_mem_take_iff {l : List UInt8} {n : Nat} (h : n ≤ l.length) :
    0 ∉ l.take n ↔ ∀ j, j < n → inMemory l j ≠ 0 := by
  constructor
  · intro hmem j hj h0
    refine hmem (List.mem_take_iff_getElem.mpr ⟨j, by omega, ?_⟩)
    have hget := getElem?_of_lt (show j < l.length by omega)
    rw [h0, List.getElem?_eq_getElem (by omega)] at hget
    exact Option.some.inj hget
  · intro hall hmem
    obtain ⟨j, hj, hget⟩ := List.mem_take_iff_getElem.mp hmem
    refine hall j (by omega) ?_
    have hat := getElem?_of_lt (show j < l.length by omega)
    rw [List.getElem?_eq_getElem (by omega), hget] at hat
    exact (Option.some.inj hat).symm

theorem take_drop_eq_iff {str pattern : List UInt8} {p k : Nat} (hstr : p + k ≤ str.length)
    (hpattern : k ≤ pattern.length) :
    (str.drop p).take k = pattern.take k
      ↔ ∀ i, i < k → inMemory str (p + i) = inMemory pattern i := by
  constructor
  · intro h i hi
    have hat := congrArg (fun l => l[i]?) h
    simp only [List.getElem?_take_of_lt hi, List.getElem?_drop] at hat
    rw [getElem?_of_lt (by omega), getElem?_of_lt (by omega)] at hat
    exact Option.some.inj hat
  · intro h
    refine List.ext_getElem? fun i => ?_
    by_cases hi : i < k
    · rw [List.getElem?_take_of_lt hi, List.getElem?_take_of_lt hi, List.getElem?_drop,
        getElem?_of_lt (by omega), getElem?_of_lt (by omega), h i hi]
    · rw [List.getElem?_eq_none (by rw [List.length_take]; omega),
        List.getElem?_eq_none (by rw [List.length_take]; omega)]

/-- The result, for every buffer and pattern. -/
theorem strContains_iff_found {str pattern : List UInt8} (hpat : 0 ∉ pattern)
    (hmask : str.length - pattern.length < 2 ^ 16) :
    strContains (inMemory str) (inMemory pattern) str.length pattern.length = true
      ↔ ∃ p, Found str pattern p := by
  have hle := Nat.mod_le pattern.length (2 ^ 16)
  rw [strContains_iff_mod hpat, Nat.mod_eq_of_lt hmask]
  refine exists_congr fun p => ?_
  constructor
  · rintro ⟨hlt, hinside, hhere⟩
    refine ⟨by omega, (take_drop_eq_iff (by omega) hle).mpr hhere, ?_⟩
    exact (not_mem_take_iff (by omega)).mpr fun j hj => hinside j (Nat.lt_succ_iff.mp hj)
  · rintro ⟨hlt, hhere, hinside⟩
    refine ⟨by omega, fun j hj => ?_, (take_drop_eq_iff (by omega) hle).mp hhere⟩
    exact (not_mem_take_iff (by omega)).mp hinside j (Nat.lt_succ_iff.mpr hj)

/-- A pattern of any size is found wherever it is, except at the end. -/
theorem Occurs.found {str pattern : List UInt8} {p : Nat} (h : Occurs str pattern p)
    (hpat : 0 ∉ pattern) (hpos : 1 ≤ pattern.length) (hlt : p + pattern.length < str.length) :
    Found str pattern p := by
  obtain ⟨hfits, hhere, hinside⟩ := h
  have hle := Nat.mod_le pattern.length (2 ^ 16)
  refine ⟨hlt, ?_, ?_⟩
  · -- what the mask leaves of the size is a front part of the pattern
    rw [← Nat.min_eq_left hle, ← List.take_take, hhere, Nat.min_eq_left hle]
  · -- the byte at `p` is the first of the pattern, so it is not a NUL either
    have hfirst : inMemory str p = inMemory pattern 0 := by
      rw [← List.take_length (l := pattern), List.length_take, Nat.min_self] at hhere
      exact (take_drop_eq_iff hfits (Nat.le_refl _)).mp hhere 0 hpos
    rw [not_mem_take_iff (by omega)] at hinside ⊢
    intro j hj
    rcases Nat.lt_succ_iff_lt_or_eq.mp hj with hlt' | rfl
    · exact hinside j hlt'
    · rw [hfirst]
      exact cString_ne_zero [] hpat hpos

/-- If the mask leaves its size alone, it is not found anywhere else. -/
theorem found_iff_occurs {str pattern : List UInt8} (hpat : 0 ∉ pattern)
    (hpos : 1 ≤ pattern.length) (hsize : pattern.length < 2 ^ 16) (p : Nat) :
    Found str pattern p ↔ p + pattern.length < str.length ∧ Occurs str pattern p := by
  constructor
  · rintro ⟨hlt, hhere, hinside⟩
    rw [Nat.mod_eq_of_lt hsize, List.take_length] at hhere
    exact ⟨hlt, by omega, hhere, fun hmem => hinside (List.take_subset_take_left _ (by omega) hmem)⟩
  · rintro ⟨hlt, hoccurs⟩
    exact hoccurs.found hpat hpos hlt

/-- **Matching.** For every pattern without a NUL and every buffer at least as long, no
byte outside of the buffer is read, and the result is `true` exactly if some position
before the last one has as many bytes of the pattern as its masked size says. It is what it
should be if and only if a pattern at the end of the buffer makes the loop stop somewhere
before, and the loop stops nowhere if the pattern is nowhere. Patterns shorter than
`2 ^ 16` bytes meet the second of the two, and the first one if they are not at the end of
the buffer alone. -/
theorem str_contains_iff (str pattern : List UInt8) (hpat : 0 ∉ pattern)
    (hpos : 1 ≤ pattern.length) (hle : pattern.length ≤ str.length)
    (hmask : str.length - pattern.length < 2 ^ 16) :
    (∃ found, strContainsIn str pattern = some found ∧
      (found = true ↔ ∃ p, Found str pattern p)) ∧
    ((strContainsIn str pattern = some true ↔ ∃ p, Occurs str pattern p) ↔
      (Occurs str pattern (str.length - pattern.length) → ∃ p, Found str pattern p) ∧
        ((∃ p, Found str pattern p) → ∃ p, Occurs str pattern p)) ∧
    (pattern.length < 2 ^ 16 →
      ((strContainsIn str pattern = some true ↔ ∃ p, Occurs str pattern p) ↔
        (Occurs str pattern (str.length - pattern.length) →
          ∃ p, p < str.length - pattern.length ∧ Occurs str pattern p))) := by
  have heq := strContainsIn_eq hpos hle
  have hfound := strContains_iff_found hpat hmask
  have hagree : (strContainsIn str pattern = some true ↔ ∃ p, Occurs str pattern p) ↔
      (Occurs str pattern (str.length - pattern.length) → ∃ p, Found str pattern p) ∧
        ((∃ p, Found str pattern p) → ∃ p, Occurs str pattern p) := by
    rw [heq, Option.some.injEq, hfound]
    refine ⟨fun h => ⟨fun hend => h.mpr ⟨_, hend⟩, h.mp⟩, fun ⟨hend, honly⟩ => ⟨honly, ?_⟩⟩
    rintro ⟨p, hoccurs⟩
    -- a position other than the last one is found itself
    have hfits := hoccurs.fits
    by_cases hp : p = str.length - pattern.length
    · exact hend (hp ▸ hoccurs)
    · exact ⟨p, hoccurs.found hpat hpos (by omega)⟩
  refine ⟨⟨_, heq, hfound⟩, hagree, fun hsize => hagree.trans ?_⟩
  simp only [found_iff_occurs hpat hpos hsize]
  constructor
  · rintro ⟨hend, -⟩ hlast
    obtain ⟨p, hp, hoccurs⟩ := hend hlast
    exact ⟨p, by omega, hoccurs⟩
  · intro h
    refine ⟨fun hlast => ?_, fun ⟨p, _, hoccurs⟩ => ⟨p, hoccurs⟩⟩
    obtain ⟨p, hp, hoccurs⟩ := h hlast
    exact ⟨p, by omega, hoccurs⟩

/-- A pattern in the middle of the buffer. -/
theorem str_contains_locale :
    (0 : UInt8) ∉ bytes ".o" ∧ 1 ≤ (bytes ".o").length ∧
    (bytes ".o").length ≤ (bytes "/usr/lib/locale/en.otf8/").length ∧
    (bytes "/usr/lib/locale/en.otf8/").length - (bytes ".o").length < 2 ^ 16 ∧
    (strContainsIn (bytes "/usr/lib/locale/en.otf8/") (bytes ".o") = some true ↔
      ∃ p, Occurs (bytes "/usr/lib/locale/en.otf8/") (bytes ".o") p) :=
  ⟨by decide, by decide, by decide, by decide,
    ((str_contains_iff _ _ (by decide) (by decide) (by decide) (by decide)).2.2 (by decide)).mpr
      fun hend => absurd hend.here (by decide)⟩

/-- The pattern `.o` at the end of the buffer `a.o`. -/
theorem suffix_not_found :
    strContainsIn (bytes "a.o") (bytes ".o") = some false ∧ Occurs (bytes "a.o") (bytes ".o") 1 :=
  ⟨by decide, by decide, by decide, by decide⟩

/-- A byte that is neither a NUL nor a given one. -/
theorem exists_filler (b : UInt8) : ∃ c : UInt8, c ≠ 0 ∧ c ≠ b := by
  by_cases h : b = 1
  · exact ⟨2, by decide, by rw [h]; decide⟩
  · exact ⟨1, by decide, fun h' => h h'.symm⟩

/-- For every pattern and every size of the buffer there is a content with the pattern at
its end that is overlooked. -/
theorem missed_at_end (pattern : List UInt8) (hpat : 0 ∉ pattern) (hpos : 1 ≤ pattern.length)
    (hsize : pattern.length < 2 ^ 16) (n : Nat) (hle : pattern.length ≤ n)
    (hmask : n - pattern.length < 2 ^ 16) :
    ∃ str : List UInt8, str.length = n ∧ Occurs str pattern (n - pattern.length) ∧
      strContainsIn str pattern = some false := by
  obtain ⟨b, rest, rfl⟩ := List.exists_cons_of_length_pos hpos
  obtain ⟨c, hc, hcb⟩ := exists_filler b
  set gap := n - (b :: rest).length with hgap
  have hlength : (List.replicate gap c ++ b :: rest).length = n := by
    rw [List.length_append, List.length_replicate]
    omega
  refine ⟨List.replicate gap c ++ b :: rest, hlength, ⟨by omega, ?_, ?_⟩, ?_⟩
  · rw [List.drop_left' (List.length_replicate ..), List.take_length]
  · rw [List.take_left' (List.length_replicate ..)]
    exact fun hmem => hc (List.eq_of_mem_replicate hmem).symm
  · -- before the end there is only the filler, which does not begin the pattern
    rw [strContainsIn_eq hpos (by omega), Option.some.injEq, Bool.eq_false_iff, Ne,
      strContains_iff_found hpat (by omega)]
    rintro ⟨p, hfound⟩
    obtain ⟨hlt, hoccurs⟩ := (found_iff_occurs hpat hpos hsize p).mp hfound
    have hp : p < gap := by omega
    have hfirst := congrArg List.head? hoccurs.here
    rw [List.drop_append_of_le_length (by rw [List.length_replicate]; omega), List.drop_replicate,
      List.length_cons] at hfirst
    obtain ⟨k, hk⟩ := Nat.exists_eq_succ_of_ne_zero (show gap - p ≠ 0 by omega)
    rw [hk] at hfirst
    exact hcb (Option.some.inj hfirst)

end DistFuzz.Bpf
