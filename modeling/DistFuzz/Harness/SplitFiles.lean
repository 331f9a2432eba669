import DistFuzz.RandomStream
import Mathlib.Data.List.Nodup

/-!
# The shares of a test case (core/src/dst_test_main.cpp:95–133)

`split_files` cuts the test case into pieces of one length, writes one for the driver
and one for each node, and lets the driver go on with its own: `__dst_reinit_random`
loads it in place of what the process read before. That sets the array and its length,
but not `fuzz_file_index`.

- `splitContent`, `splitFiles`: the pieces, and the function.
- `splitFiles_eq`: the files it leaves, and the driver's stream.
- `Fresh`: the stream reads as in a process that loaded only this file.
- `Unspoilt`: nothing was read before, or the file is all zeros; `fresh_of_unspoilt`,
  `unspoilt_of_fresh`: it reads so exactly then.
-/

namespace DistFuzz.Harness

open DistFuzz.Lib

/-! ### The pieces -/

/-- The name of a file. -/
inductive FileName where
  /-- `random.txt`. -/
  | random
  /-- `random_node` and the number. -/
  | randomNode (i : Nat)
  | other (name : String)
deriving DecidableEq

/-- The files there are. -/
abbrev Files := FileName → Option (List UInt8)

/-- `write_files`. -/
def writeFiles (nodeCount : Nat) : List FileName :=
  .random :: (List.range nodeCount).map .randomNode

/-- `average_length`. -/
def averageLength (content : List UInt8) (nodeCount : Nat) : Nat :=
  content.length / (writeFiles nodeCount).length

/-- `split_content`, for the file at `f_index`. -/
def splitContent (content : List UInt8) (nodeCount fIndex : Nat) : List UInt8 :=
  (content.drop (averageLength content nodeCount * fIndex)).take (averageLength content nodeCount)

/-- A turn of the loop that writes the pieces. -/
def writePiece (content : List UInt8) (nodeCount : Nat) (files : Files) (w : FileName × Nat) :
    Files :=
  Function.update files w.1 (some (splitContent content nodeCount w.2))

/-- The whole loop. -/
def writePieces (content : List UInt8) (nodeCount : Nat) (files : Files) : Files :=
  (writeFiles nodeCount).zipIdx.foldl (writePiece content nodeCount) files

/-- `split_files`: none is `exit(-1)`. -/
def splitFiles (files : Files) (initialFile : FileName) (nodeCount : Nat) (r : RandomFile) :
    Option (Files × RandomFile) := do
  let content ← files initialFile
  let files := writePieces content nodeCount files
  let r ← r.reinitRandom files (some .random)
  return (files, r)

theorem length_writeFiles (nodeCount : Nat) : (writeFiles nodeCount).length = nodeCount + 1 := by
  rw [writeFiles, List.length_cons, List.length_map, List.length_range]

theorem averageLength_eq (content : List UInt8) (nodeCount : Nat) :
    averageLength content nodeCount = content.length / (nodeCount + 1) := by
  rw [averageLength, length_writeFiles]

/-- Every piece has the same length. -/
theorem length_splitContent (content : List UInt8) {nodeCount fIndex : Nat}
    (h : fIndex ≤ nodeCount) :
    (splitContent content nodeCount fIndex).length = content.length / (nodeCount + 1) := by
  have hfit : content.length / (nodeCount + 1) * (fIndex + 1) ≤ content.length :=
    calc content.length / (nodeCount + 1) * (fIndex + 1)
        ≤ content.length / (nodeCount + 1) * (nodeCount + 1) :=
          Nat.mul_le_mul_left _ (Nat.succ_le_succ h)
      _ ≤ content.length := Nat.div_mul_le_self ..
  rw [Nat.mul_succ] at hfit
  rw [splitContent, averageLength_eq, List.length_take, List.length_drop]
  omega

theorem nodup_writeFiles (nodeCount : Nat) : (writeFiles nodeCount).Nodup := by
  refine List.nodup_cons.mpr ⟨?_, List.nodup_range.map fun i j h => FileName.randomNode.inj h⟩
  rw [List.mem_map]
  rintro ⟨i, -, h⟩
  cases h

/-- The files are written under different names, so each keeps its piece. -/
theorem writePieces_apply (content : List UInt8) (nodeCount : Nat) (files : Files) {k : Nat}
    {name : FileName} (h : (writeFiles nodeCount)[k]? = some name) :
    writePieces content nodeCount files name = some (splitContent content nodeCount k) := by
  -- before turn `n`, the first `n` files have their pieces
  have hall : ∀ j name, j < 0 + (writeFiles nodeCount).length →
      (writeFiles nodeCount)[j]? = some name →
      writePieces content nodeCount files name = some (splitContent content nodeCount j) := by
    refine foldl_zipIdx_inv (fun n (files : Files) => ∀ j name, j < n →
      (writeFiles nodeCount)[j]? = some name →
      files name = some (splitContent content nodeCount j)) ?_ ?_
    · exact fun j name hj => absurd hj (Nat.not_lt_zero j)
    · intro n written files hwritten ih j name hj hname
      rw [Nat.zero_add] at hj ih ⊢
      by_cases heq : j = n
      · subst heq
        obtain rfl := Option.some.inj (hwritten.symm.trans hname)
        exact Function.update_self ..
      · have hne : name ≠ written := by
          rintro rfl
          have hlt := (List.getElem?_eq_some_iff.mp hname).1
          exact heq ((List.getElem?_inj hlt (nodup_writeFiles nodeCount)).mp
            (hname.trans hwritten.symm))
        rw [writePiece, Function.update_of_ne hne]
        exact ih j name (by omega) hname
  exact hall k name (by simpa using (List.getElem?_eq_some_iff.mp h).1) h

/-- The stream with another file put under it. -/
def under (file : List UInt8) (r : RandomFile) : RandomFile := { r with fuzzFileArray := file }

/-- `split_files` leaves the pieces, and the driver's stream with the first of them at
the index where it was. -/
theorem splitFiles_eq {files : Files} {initialFile : FileName} {content : List UInt8}
    (h : files initialFile = some content) (nodeCount : Nat) (r : RandomFile) :
    splitFiles files initialFile nodeCount r
      = some (writePieces content nodeCount files,
          under (splitContent content nodeCount 0) r) := by
  have hfirst : writePieces content nodeCount files .random
      = some (splitContent content nodeCount 0) := writePieces_apply content nodeCount files rfl
  rw [splitFiles, h]
  simp only [Option.bind_eq_bind, Option.bind_some, RandomFile.reinitRandom,
    RandomFile.fileToString, hfirst, Option.map_some, Option.pure_def, under]

/-! ### Reading on -/

/-- Whatever is read next is what a process that loaded only this file reads. -/
def Fresh (file : List UInt8) (r : RandomFile) : Prop :=
  ∀ qs, r.replies qs = (RandomFile.load file).replies qs

/-- A file of zeros reads the same from everywhere. -/
theorem readByte_of_zeros {r : RandomFile} (h : ∀ b ∈ r.fuzzFileArray, b = 0) :
    r.readByte.1 = 0 := by
  rw [RandomFile.readByte]
  split
  · rfl
  · next t ht => exact h t (List.mem_of_getElem? ht)

theorem readBytes_of_zeros {r : RandomFile} (h : ∀ b ∈ r.fuzzFileArray, b = 0) (n : Nat) :
    (r.readBytes n).1 = List.replicate n 0 ∧ (r.readBytes n).2.fuzzFileArray = r.fuzzFileArray := by
  induction n generalizing r with
  | zero => exact ⟨rfl, rfl⟩
  | succ n ih =>
    have harray := RandomFile.readByte_array r
    obtain ⟨hbytes, hrest⟩ := ih (r := r.readByte.2) (by rwa [harray])
    rw [RandomFile.readBytes, List.replicate_succ, readByte_of_zeros h, hbytes, hrest]
    exact ⟨rfl, harray⟩

/-- Two streams over the same zeros. -/
theorem replies_of_zeros (r r' : RandomFile) (h : ∀ b ∈ r.fuzzFileArray, b = 0)
    (harray : r'.fuzzFileArray = r.fuzzFileArray) (qs : List Request) :
    r'.replies qs = r.replies qs := by
  induction qs generalizing r r' with
  | nil => rfl
  | cons q qs ih =>
    have h' : ∀ b ∈ r'.fuzzFileArray, b = 0 := by rwa [harray]
    obtain ⟨hbytes, hrest⟩ := readBytes_of_zeros h q.width
    obtain ⟨hbytes', hrest'⟩ := readBytes_of_zeros h' q.width
    have hcall : (r'.getRandom q).1 = (r.getRandom q).1 := by
      rw [getRandom_eq, getRandom_eq, hbytes, hbytes']
    have hnext : (r.afterCall q).fuzzFileArray = r.fuzzFileArray := by
      rw [RandomFile.afterCall, getRandom_eq, hrest]
    have hnext' : (r'.afterCall q).fuzzFileArray = r'.fuzzFileArray := by
      rw [RandomFile.afterCall, getRandom_eq, hrest']
    show (r'.getRandom q).1 :: (r'.afterCall q).replies qs
      = (r.getRandom q).1 :: (r.afterCall q).replies qs
    rw [hcall, ih (r.afterCall q) (r'.afterCall q) (by rwa [hnext])]
    rw [hnext, hnext', harray]

/-- A file that repeats itself after `i` bytes and then in zeros is all zeros. -/
theorem zeros_of_shift {file : List UInt8} {i : Nat} (hi : 0 < i)
    (h : ∀ k, k < file.length → padded file (i + k) = padded file k) :
    ∀ b ∈ file, b = 0 := by
  have hzero : ∀ k, padded file k = 0 := by
    intro k
    induction hleft : file.length - k using Nat.strong_induction_on generalizing k with
    | _ left ih =>
      by_cases hk : k < file.length
      · rw [← h k hk]
        exact ih _ (by omega) (i + k) rfl
      · rw [padded, List.getD_eq_getElem?_getD, List.getElem?_eq_none (Nat.le_of_not_lt hk),
          Option.getD_none]
  intro b hb
  obtain ⟨k, hk⟩ := List.getElem?_of_mem hb
  have hat := hzero k
  rwa [padded, List.getD_eq_getElem?_getD, hk, Option.getD_some] at hat

/-- A string as long as the file shows it from where the stream is. -/
theorem replies_string {file : List UInt8} {off : Nat} {r : RandomFile}
    (h : RandomFile.At file off r) (hlen : file.length < 2 ^ 32) :
    r.replies [.string (UInt32.ofNat file.length)] = [.string (segment file off file.length)] := by
  have hwidth : (UInt32.ofNat file.length).toNat = file.length := UInt32.toNat_ofNat_of_lt' hlen
  show [Reply.string (r.readBytes (UInt32.ofNat file.length).toNat).1] = _
  rw [hwidth, (h.readBytes hlen file.length).1]

/-- Nothing has been read, or the file is all zeros. -/
def Unspoilt (file : List UInt8) (r : RandomFile) : Prop :=
  r.fuzzFileIndex = 0 ∨ ∀ b ∈ file, b = 0

theorem fresh_of_unspoilt {file : List UInt8} {r : RandomFile} (h : Unspoilt file r) :
    Fresh file (under file r) := by
  intro qs
  rcases h with hindex | hzeros
  · rw [under, hindex]
    rfl
  · exact replies_of_zeros (RandomFile.load file) (under file r) hzeros rfl qs

theorem unspoilt_of_fresh {file : List UInt8} (hlen : file.length < 2 ^ 32) {r : RandomFile}
    (h : Fresh file (under file r)) : Unspoilt file r := by
  by_cases hindex : r.fuzzFileIndex = 0
  · exact .inl hindex
  · -- the file from the index on looks like the file, so it repeats itself
    have hat : RandomFile.At file r.fuzzFileIndex.toNat (under file r) := ⟨rfl, rfl⟩
    have heq := h [.string (UInt32.ofNat file.length)]
    rw [replies_string hat hlen, replies_string (RandomFile.at_load file) hlen] at heq
    have hsegment := Reply.string.inj (List.cons.inj heq).1
    refine .inr (zeros_of_shift (i := r.fuzzFileIndex.toNat) ?_ fun k hk => ?_)
    · exact Nat.pos_of_ne_zero fun h0 => hindex (UInt32.toNat_inj.mp h0)
    · have hbyte := congrArg (fun l => l[k]?) hsegment
      simpa [segment, hk] using hbyte

/-! ### What was read before -/

/-- The stream once these calls were made on that file. -/
def streamAfter (earlier : List UInt8) (history : List Request) : RandomFile :=
  run RandomFile.afterCall (.load earlier) history

/-- The index does not pass the end of this file, and every read keeps it there. -/
structure Within (file : List UInt8) (r : RandomFile) : Prop where
  array : r.fuzzFileArray = file
  index_le : r.fuzzFileIndex.toNat ≤ file.length

theorem Within.readByte {file : List UInt8} (hlen : file.length < 2 ^ 32) {r : RandomFile}
    (h : Within file r) : Within file r.readByte.2 := by
  obtain ⟨rfl, hle⟩ := h
  refine ⟨RandomFile.readByte_array r, ?_⟩
  by_cases hin : r.fuzzFileIndex.toNat < r.fuzzFileArray.length
  · rw [RandomFile.readByte_inside hin]
    show (r.fuzzFileIndex + 1).toNat ≤ _
    rw [RandomFile.index_succ hlen hin]
    exact hin
  · rw [RandomFile.readByte_atEnd (Nat.le_of_not_lt hin)]
    exact hle

theorem Within.readBytes {file : List UInt8} (hlen : file.length < 2 ^ 32) {r : RandomFile}
    (h : Within file r) (n : Nat) : Within file (r.readBytes n).2 := by
  induction n generalizing r with
  | zero => exact h
  | succ n ih => exact ih (h.readByte hlen)

theorem within_streamAfter {earlier : List UInt8} (hlen : earlier.length < 2 ^ 32)
    (history : List Request) : Within earlier (streamAfter earlier history) := by
  refine run_inv' (Within earlier) (fun r q h => ?_) ⟨rfl, Nat.zero_le _⟩ history
  rw [RandomFile.afterCall, getRandom_eq]
  exact h.readBytes hlen q.width

/-- The index counts the bytes read, up to the end of the file. -/
theorem streamAfter_index {earlier : List UInt8} (hlen : earlier.length < 2 ^ 32)
    (history : List Request) :
    (streamAfter earlier history).fuzzFileIndex.toNat
      = min (totalWidth history) earlier.length := by
  have hindex := ((RandomFile.at_load earlier).run hlen history).index
  rw [Nat.zero_add] at hindex
  rw [← hindex]
  exact (Nat.min_eq_left (within_streamAfter hlen history).index_le).symm

/-- **Re-initialising the stream.** For every history of calls on an earlier file,
what is read after `__dst_reinit_random` is what a process reads that loaded only this
file, if the index is `0` or the file is all zeros, and for a file shorter than
`2 ^ 32` bytes only then. The index is `0` exactly if nothing was read or there was
nothing to read. So a test run is independent of what the driver read before
`split_files` only if the driver's share of the test case is all zeros. -/
theorem reinit_fresh_iff (earlier : List UInt8) (history : List Request) :
    (∀ (ν : Type) (files : ν → Option (List UInt8)) (name : ν) (file : List UInt8),
      files name = some file → ∃ r,
        (streamAfter earlier history).reinitRandom files (some name) = some r ∧
        (Unspoilt file (streamAfter earlier history) → Fresh file r) ∧
        (file.length < 2 ^ 32 → Fresh file r → Unspoilt file (streamAfter earlier history))) ∧
    (earlier.length < 2 ^ 32 →
      ((streamAfter earlier history).fuzzFileIndex = 0 ↔
        totalWidth history = 0 ∨ earlier = [])) ∧
    (∀ (files : Files) (initialFile : FileName) (content : List UInt8) (nodeCount : Nat),
      files initialFile = some content → (splitContent content nodeCount 0).length < 2 ^ 32 →
        ((∀ earlier history, ∃ files' r,
            splitFiles files initialFile nodeCount (streamAfter earlier history)
              = some (files', r) ∧ Fresh (splitContent content nodeCount 0) r) ↔
          ∀ b ∈ splitContent content nodeCount 0, b = 0)) := by
  refine ⟨fun ν files name file hfile => ?_, fun hlen => ?_,
    fun files initialFile content nodeCount hfile hlen => ?_⟩
  · refine ⟨under file (streamAfter earlier history), ?_, fresh_of_unspoilt,
      fun hlen h => unspoilt_of_fresh hlen h⟩
    rw [RandomFile.reinitRandom, RandomFile.fileToString, hfile]
    rfl
  · have hindex := streamAfter_index hlen history
    rw [← UInt32.toNat_inj, hindex, ← List.length_eq_zero_iff]
    show min _ _ = 0 ↔ _
    omega
  · constructor
    · intro h
      -- one byte read before is enough
      obtain ⟨files', r, heq, hfresh⟩ := h [0] [.uint8]
      rw [splitFiles_eq hfile] at heq
      obtain ⟨-, rfl⟩ := Prod.mk.inj (Option.some.inj heq)
      rcases unspoilt_of_fresh hlen hfresh with hindex | hzeros
      · exact absurd hindex (by decide)
      · exact hzeros
    · intro hzeros earlier history
      exact ⟨_, _, splitFiles_eq hfile nodeCount _, fresh_of_unspoilt (.inr hzeros)⟩

/-- One byte was read before the test case `7, 8, 9, 10` is split for one node. -/
theorem oneByteBefore_skips :
    ((splitFiles (fun _ => some [7, 8, 9, 10]) (.other "init_random.txt") 1
        (streamAfter [1, 2] [.uint8])).map fun fr => fr.2.replies [.uint8]) = some [.uint8 8] ∧
      (RandomFile.load [7, 8]).replies [.uint8] = [.uint8 7] := by
  decide

end DistFuzz.Harness
