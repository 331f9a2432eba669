import DistFuzz.Lib.Words

/-!
# Allocated blocks with checked access

A block of bytes as `new u8[n]` returns it. Reading or writing a byte outside of
it is a fault, `none`; so a program that never yields `none` stays inside its
blocks. No object is larger than `PTRDIFF_MAX`, and asking for a larger one is a
fault too.

- `Block`, `Block.new`, `Block.read`, `Block.write`, `Block.memcpy`,
  `Block.memset`, `Block.storeWord`, `Block.modifyWord`.
- `Block.exists_read`, `Block.exists_write`, …: an access inside the block
  succeeds and keeps its size.
- `Block.bytes_of_write`, `Block.bytes_of_memcpy`: what the block then holds.
- `Block.write_eq`, `Block.storeWord_eq`, `Block.read_eq`, `Block.memcpy_eq`: the
  accesses as overwriting and reading of a byte string.
-/

namespace DistFuzz.Lib

/-- An allocated block. Reads and writes are checked against its size, and its size is below
`2^63`, as that of any object is. -/
structure Block where
  bytes : List UInt8
  length_lt : bytes.length < 2 ^ 63

namespace Block

/-- How much was allocated. -/
def size (b : Block) : Nat := b.bytes.length

/-- `new u8[n]`. The content is left open in C++; here it is zero. -/
def new (n : Nat) : Option Block :=
  if h : n < 2 ^ 63 then some ⟨List.replicate n 0, by rwa [List.length_replicate]⟩ else none

/-- The `n` bytes from `off` on. -/
def read (b : Block) (off n : Nat) : Option (List UInt8) :=
  if off + n ≤ b.size then some ((b.bytes.drop off).take n) else none

/-- Overwrite the bytes from `off` on with `xs`. -/
def write (b : Block) (off : Nat) (xs : List UInt8) : Option Block :=
  if h : off + xs.length ≤ b.size then
    some {
      bytes := b.bytes.take off ++ (xs ++ b.bytes.drop (off + xs.length))
      length_lt := by
        have hlt := b.length_lt
        rw [size] at h
        simp only [List.length_append, List.length_take, List.length_drop]
        omega }
  else none

/-- `memcpy(dst + dstOff, src + srcOff, n)`; with both blocks the same,
`memmove`. -/
def memcpy (dst : Block) (dstOff : Nat) (src : Block) (srcOff n : Nat) : Option Block := do
  dst.write dstOff (← src.read srcOff n)

/-- `memset(b + off, v, n)`. -/
def memset (b : Block) (off : Nat) (v : UInt8) (n : Nat) : Option Block :=
  b.write off (List.replicate n v)

/-- Store a `w`-byte word through a pointer to position `off`. -/
def storeWord {w : Nat} (b : Block) (off : Nat) (x : BitVec (8 * w)) : Option Block :=
  b.write off ((List.range w).map (byteOf x))

/-- Change the `w`-byte word at position `off`. -/
def modifyWord (w : Nat) (b : Block) (off : Nat) (f : BitVec (8 * w) → BitVec (8 * w)) :
    Option Block := do
  let xs ← b.read off w
  b.storeWord off (f (loadBytes w fun j => xs.getD j 0))

theorem exists_new {n : Nat} (h : n < 2 ^ 63) : ∃ b, new n = some b ∧ b.size = n :=
  ⟨_, dif_pos h, List.length_replicate⟩

theorem exists_read {b : Block} {off n : Nat} (h : off + n ≤ b.size) :
    ∃ xs, b.read off n = some xs ∧ xs.length = n := by
  refine ⟨_, if_pos h, ?_⟩
  rw [size] at h
  rw [List.length_take, List.length_drop]
  omega

theorem exists_write {b : Block} {off : Nat} {xs : List UInt8} (h : off + xs.length ≤ b.size) :
    ∃ b', b.write off xs = some b' ∧ b'.size = b.size := by
  refine ⟨_, dif_pos h, ?_⟩
  rw [size] at h
  simp only [size, List.length_append, List.length_take, List.length_drop]
  omega

theorem exists_memcpy {dst src : Block} {dstOff srcOff n : Nat} (hdst : dstOff + n ≤ dst.size)
    (hsrc : srcOff + n ≤ src.size) :
    ∃ b, dst.memcpy dstOff src srcOff n = some b ∧ b.size = dst.size := by
  obtain ⟨xs, hread, rfl⟩ := exists_read hsrc
  rw [memcpy, hread]
  exact exists_write hdst

theorem exists_memset {b : Block} {off n : Nat} (v : UInt8) (h : off + n ≤ b.size) :
    ∃ b', b.memset off v n = some b' ∧ b'.size = b.size :=
  exists_write (by rwa [List.length_replicate])

theorem exists_storeWord {w : Nat} {b : Block} {off : Nat} (x : BitVec (8 * w))
    (h : off + w ≤ b.size) : ∃ b', b.storeWord off x = some b' ∧ b'.size = b.size :=
  exists_write (by rwa [List.length_map, List.length_range])

theorem exists_modifyWord {w : Nat} {b : Block} {off : Nat} (f : BitVec (8 * w) → BitVec (8 * w))
    (h : off + w ≤ b.size) : ∃ b', b.modifyWord w off f = some b' ∧ b'.size = b.size := by
  obtain ⟨xs, hread, -⟩ := exists_read h
  rw [modifyWord, hread]
  exact exists_storeWord _ h

theorem read_front {b : Block} {n : Nat} (h : n ≤ b.size) :
    b.read 0 n = some (b.bytes.take n) := by
  rw [read, if_pos (by omega), List.drop_zero]

theorem size_of_new {n : Nat} {b : Block} (h : new n = some b) : b.size = n := by
  rw [new] at h
  split at h
  · obtain rfl := Option.some.inj h
    exact List.length_replicate
  · cases h

/-- A copy that succeeds stays in both blocks and keeps the size. -/
theorem bounds_of_memcpy {dst src b : Block} {dstOff srcOff n : Nat}
    (h : dst.memcpy dstOff src srcOff n = some b) :
    dstOff + n ≤ dst.size ∧ srcOff + n ≤ src.size ∧ b.size = dst.size := by
  obtain ⟨xs, hread, hwrite⟩ := Option.bind_eq_some_iff.mp h
  have hsrc : srcOff + n ≤ src.size := by
    by_contra hout
    rw [read, if_neg hout] at hread
    cases hread
  -- the read is the one that is known to succeed, so its length is known
  obtain ⟨xs', hread', hlen⟩ := exists_read hsrc
  obtain rfl := Option.some.inj (hread.symm.trans hread')
  have hdst : dstOff + xs.length ≤ dst.size := by
    by_contra hout
    rw [write, dif_neg hout] at hwrite
    cases hwrite
  obtain ⟨b', hwrite', hsize⟩ := exists_write hdst
  obtain rfl := Option.some.inj (hwrite.symm.trans hwrite')
  exact ⟨by omega, hsrc, hsize⟩

/-- What is written to the front of a block replaces that many bytes of it. -/
theorem bytes_of_write {b b' : Block} {xs : List UInt8} (h : b.write 0 xs = some b') :
    b'.bytes = xs ++ b.bytes.drop xs.length := by
  rw [write] at h
  split at h
  · obtain rfl := Option.some.inj h
    show b.bytes.take 0 ++ (xs ++ b.bytes.drop (0 + xs.length)) = _
    rw [List.take_zero, List.nil_append, Nat.zero_add]
  · cases h

/-- What a block holds after a copy to its front. -/
theorem bytes_of_memcpy {dst src b : Block} {n : Nat} (h : dst.memcpy 0 src 0 n = some b) :
    b.bytes = src.bytes.take n ++ dst.bytes.drop n := by
  have hsrc : n ≤ src.size := by
    have hbounds := bounds_of_memcpy h
    omega
  rw [memcpy, read_front hsrc] at h
  rw [bytes_of_write h, List.length_take_of_le hsrc]

/-- What was copied to the front of a block is there. -/
theorem take_memcpy {dst src b : Block} {n : Nat} (h : dst.memcpy 0 src 0 n = some b) :
    b.bytes.take n = src.bytes.take n := by
  have hsrc : n ≤ src.size := by
    have hbounds := bounds_of_memcpy h
    omega
  rw [bytes_of_memcpy h, List.take_left' (List.length_take_of_le hsrc)]

/-! ## Accesses to the byte string -/

theorem eq_of_bytes {b b' : Block} (h : b.bytes = b'.bytes) : b = b' := by
  cases b
  cases b'
  cases h
  rfl

/-- Where a write stays inside, it overwrites. -/
theorem write_eq {b : Block} {off : Nat} {xs : List UInt8} (h : off + xs.length ≤ b.size) :
    ∃ b', b.write off xs = some b' ∧ b'.bytes = overwrite b.bytes off xs :=
  ⟨_, dif_pos h, rfl⟩

theorem storeWord_eq {w : Nat} {b : Block} {off : Nat} (x : BitVec (8 * w))
    (h : off + w ≤ b.size) :
    ∃ b', b.storeWord off x = some b' ∧ b'.bytes = overwrite b.bytes off (wordBytes x) :=
  write_eq (by rwa [← length_wordBytes x] at h)

theorem read_eq {b : Block} {off n : Nat} (h : off + n ≤ b.size) :
    b.read off n = some ((b.bytes.drop off).take n) := if_pos h

theorem memcpy_eq {dst src : Block} {dstOff srcOff n : Nat} (hdst : dstOff + n ≤ dst.size)
    (hsrc : srcOff + n ≤ src.size) : ∃ b, dst.memcpy dstOff src srcOff n = some b ∧
      b.bytes = overwrite dst.bytes dstOff ((src.bytes.drop srcOff).take n) := by
  have hlen : ((src.bytes.drop srcOff).take n).length = n := by
    rw [List.length_take, List.length_drop]
    rw [size] at hsrc
    omega
  rw [memcpy, read_eq hsrc]
  exact write_eq (by rwa [hlen])

/-- A copy that is longer than the block it goes to. -/
theorem memcpy_eq_none {dst src : Block} {dstOff srcOff n : Nat} (h : src.size < n) :
    dst.memcpy dstOff src srcOff n = none := by
  have hread : src.read srcOff n = none := if_neg (by omega)
  rw [memcpy, hread]
  rfl

end Block

end DistFuzz.Lib
