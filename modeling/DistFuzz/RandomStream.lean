import DistFuzz.Lib.Critical
import DistFuzz.Random

/-!
# What the random stream delivers (core/src/dst_default_random.c)

The threads of the test driver and the injectors draw numbers and strings of several
widths from one file. Every call takes the mutex, reads its bytes one by one, and
releases it; past the end of the file `read_byte` returns `0` and stays where it is.

- `Request`, `Reply`, `getRandom`: the four functions as one; `reinitRandom`.
- `segment`, `segments`: the bytes of the file, followed by zeros, cut up in the order
  of the calls; `Reply.Carries`: a reply is the big-endian value of its bytes.
- `replies_carry`: a sequence of calls delivers the segments.
- `drawSection`: a call as a critical section; `replies_of_serial`: one after the other,
  the sections are the sequence of calls.
-/

namespace DistFuzz

open DistFuzz.Lib

/-- A call, with the length of the string it asks for. -/
inductive Request where
  | uint8
  | uint16
  | uint32
  | string (length : UInt32)
deriving DecidableEq, Repr

/-- What a call returns. -/
inductive Reply where
  | uint8 (result : UInt8)
  | uint16 (result : UInt16)
  | uint32 (result : UInt32)
  | string (result : List UInt8)
deriving DecidableEq, Repr

/-- The number of bytes a call reads. -/
def Request.width : Request → Nat
  | .uint8 => 1
  | .uint16 => 2
  | .uint32 => 4
  | .string length => length.toNat

namespace RandomFile

/-- `n` calls of `read_byte`. -/
def readBytes : Nat → RandomFile → List UInt8 × RandomFile
  | 0, r => ([], r)
  | n + 1, r => (r.readByte.1 :: (readBytes n r.readByte.2).1, (readBytes n r.readByte.2).2)

/-- `__dst_get_random_string`. -/
def getRandomString (r : RandomFile) (length : UInt32) : List UInt8 × RandomFile :=
  readBytes length.toNat r

/-- The function that is called. -/
def getRandom (r : RandomFile) : Request → Reply × RandomFile
  | .uint8 => (.uint8 r.getRandomUint8.1, r.getRandomUint8.2)
  | .uint16 => (.uint16 r.getRandomUint16.1, r.getRandomUint16.2)
  | .uint32 => (.uint32 r.getRandomUint32.1, r.getRandomUint32.2)
  | .string length => (.string (r.getRandomString length).1, (r.getRandomString length).2)

/-- The stream after a call. -/
def afterCall (r : RandomFile) (q : Request) : RandomFile := (r.getRandom q).2

/-- What a sequence of calls returns. -/
def replies (r : RandomFile) (qs : List Request) : List Reply :=
  outputs afterCall (fun r q => (r.getRandom q).1) r qs

/-- `file_to_string`, with the files there are, by name; none is `exit(-1)`. -/
def fileToString {ν : Type*} (files : ν → Option (List UInt8)) (fileName : ν) (r : RandomFile) :
    Option RandomFile :=
  (files fileName).map fun content => { r with fuzzFileArray := content }

/-- `__dst_reinit_random`; no name is `NULL`. -/
def reinitRandom {ν : Type*} (files : ν → Option (List UInt8)) (fileName : Option ν)
    (r : RandomFile) : Option RandomFile :=
  match fileName with
  | some name => fileToString files name r
  | none => some r

end RandomFile

/-! ### The file in segments -/

/-- Byte `i` of the file followed by zeros. -/
def padded (file : List UInt8) (i : Nat) : UInt8 := file.getD i 0

/-- Its `n` bytes from `off` on. -/
def segment (file : List UInt8) (off n : Nat) : List UInt8 :=
  (List.range' off n).map (padded file)

/-- From `off` on, one segment for each call. -/
def segments (file : List UInt8) : Nat → List Request → List (List UInt8)
  | _, [] => []
  | off, q :: qs => segment file off q.width :: segments file (off + q.width) qs

/-- The number of bytes the calls read. -/
def totalWidth (qs : List Request) : Nat := (qs.map Request.width).sum

@[simp] theorem length_segment (file : List UInt8) (off n : Nat) :
    (segment file off n).length = n := by
  rw [segment, List.length_map, List.length_range']

theorem segment_succ (file : List UInt8) (off n : Nat) :
    segment file off (n + 1) = padded file off :: segment file (off + 1) n := by
  rw [segment, List.range'_succ, List.map_cons, segment]

theorem segment_append (file : List UInt8) (off m n : Nat) :
    segment file off m ++ segment file (off + m) n = segment file off (m + n) := by
  rw [segment, segment, segment, ← List.map_append, List.range'_append_1]

/-- The segments partition the file. -/
theorem flatten_segments (file : List UInt8) (off : Nat) (qs : List Request) :
    (segments file off qs).flatten = segment file off (totalWidth qs) := by
  induction qs generalizing off with
  | nil => rfl
  | cons q qs ih =>
    rw [segments, List.flatten_cons, ih, segment_append]
    rfl

/-- The value of the bytes, most significant first. -/
def bigEndian (bs : List UInt8) : Nat := bs.foldl (fun v b => 256 * v + b.toNat) 0

/-- The reply is made of these bytes. -/
def Reply.Carries : Reply → List UInt8 → Prop
  | .uint8 v, bs => bs.length = 1 ∧ v.toNat = bigEndian bs
  | .uint16 v, bs => bs.length = 2 ∧ v.toNat = bigEndian bs
  | .uint32 v, bs => bs.length = 4 ∧ v.toNat = bigEndian bs
  | .string s, bs => s = bs

/-! ### Putting a reply together -/

/-- `result <<= 8; result |= read_byte();` for the bytes read, in their order. -/
def Request.assemble : Request → List UInt8 → Reply
  | .uint8, bs => .uint8 (bs.headD 0)
  | .uint16, bs => .uint16 (bs.foldl (fun result b => (result <<< 8) ||| b.toUInt16) 0)
  | .uint32, bs => .uint32 (bs.foldl (fun result b => (result <<< 8) ||| b.toUInt32) 0)
  | .string _, bs => .string bs

theorem getRandom_eq (r : RandomFile) (q : Request) :
    r.getRandom q = (q.assemble (r.readBytes q.width).1, (r.readBytes q.width).2) := by
  cases q with
  | uint8 => rfl
  | uint16 => simp [RandomFile.getRandom, RandomFile.getRandomUint16, Request.assemble,
      Request.width, RandomFile.readBytes]
  | uint32 => simp [RandomFile.getRandom, RandomFile.getRandomUint32, Request.assemble,
      Request.width, RandomFile.readBytes]
  | string length => rfl

/-- Shifting in a byte. -/
theorem shift_or_byte {v b : Nat} (hb : b < 256) : (v <<< 8) ||| b = 256 * v + b := by
  rw [← Nat.shiftLeft_add_eq_or_of_lt hb, Nat.shiftLeft_eq, Nat.mul_comm]

theorem toNat_shift_or_uint16 {v : UInt16} (hv : v.toNat < 2 ^ 8) (b : UInt8) :
    ((v <<< 8) ||| b.toUInt16).toNat = 256 * v.toNat + b.toNat := by
  have hshift : (v <<< 8).toNat = v.toNat <<< 8 := by
    rw [UInt16.toNat_shiftLeft]
    refine Nat.mod_eq_of_lt ?_
    show v.toNat <<< 8 < _
    rw [Nat.shiftLeft_eq]
    omega
  rw [UInt16.toNat_or, hshift, UInt8.toNat_toUInt16, shift_or_byte b.toNat_lt]

theorem toNat_shift_or_uint32 {v : UInt32} (hv : v.toNat < 2 ^ 24) (b : UInt8) :
    ((v <<< 8) ||| b.toUInt32).toNat = 256 * v.toNat + b.toNat := by
  have hshift : (v <<< 8).toNat = v.toNat <<< 8 := by
    rw [UInt32.toNat_shiftLeft]
    refine Nat.mod_eq_of_lt ?_
    show v.toNat <<< 8 < _
    rw [Nat.shiftLeft_eq]
    omega
  rw [UInt32.toNat_or, hshift, UInt8.toNat_toUInt32, shift_or_byte b.toNat_lt]

/-- A reply put together from as many bytes as it has is their value. -/
theorem assemble_carries {q : Request} {bs : List UInt8} (h : bs.length = q.width) :
    (q.assemble bs).Carries bs := by
  cases q with
  | uint8 =>
    obtain ⟨b, rfl⟩ := List.length_eq_one_iff.mp h
    exact ⟨rfl, by simp [bigEndian]⟩
  | uint16 =>
    obtain ⟨b₁, b₂, rfl⟩ := List.length_eq_two.mp h
    have h₁ : ((0 : UInt16) <<< 8 ||| b₁.toUInt16).toNat = b₁.toNat := by simp
    refine ⟨rfl, ?_⟩
    show ((((0 : UInt16) <<< 8) ||| b₁.toUInt16) <<< 8 ||| b₂.toUInt16).toNat = _
    rw [toNat_shift_or_uint16 (h₁ ▸ b₁.toNat_lt), h₁]
    simp [bigEndian]
  | uint32 =>
    -- from the left: after each byte the value still has room for eight more bits
    match bs, h with
    | [b₁, b₂, b₃, b₄], _ =>
      have hb₁ := b₁.toNat_lt
      have hb₂ := b₂.toNat_lt
      have hb₃ := b₃.toNat_lt
      have h₁ : ((0 : UInt32) <<< 8 ||| b₁.toUInt32).toNat = b₁.toNat := by simp
      have h₂ := toNat_shift_or_uint32 (v := (0 : UInt32) <<< 8 ||| b₁.toUInt32) (by omega) b₂
      have h₃ := toNat_shift_or_uint32
        (v := ((0 : UInt32) <<< 8 ||| b₁.toUInt32) <<< 8 ||| b₂.toUInt32) (by omega) b₃
      refine ⟨rfl, ?_⟩
      show (((((0 : UInt32) <<< 8 ||| b₁.toUInt32) <<< 8 ||| b₂.toUInt32) <<< 8
        ||| b₃.toUInt32) <<< 8 ||| b₄.toUInt32).toNat = _
      rw [toNat_shift_or_uint32 (by omega), h₃, h₂, h₁]
      simp [bigEndian]
  | string length => rfl

/-! ### A sequence of calls -/

namespace RandomFile

/-- The stream is at byte `off` of the file followed by zeros. At the end the index stays where it
is, so the two are compared up to the length of the file. -/
structure At (file : List UInt8) (off : Nat) (r : RandomFile) : Prop where
  array : r.fuzzFileArray = file
  index : min r.fuzzFileIndex.toNat file.length = min off file.length

variable {file : List UInt8} {off : Nat} {r : RandomFile}

theorem at_load (file : List UInt8) : At file 0 (load file) := ⟨rfl, rfl⟩

/-- A byte is delivered. At the end of the file the index stays, and the next byte of
the padded file is `0`. -/
theorem At.readByte (h : At file off r) (hlen : file.length < 2 ^ 32) :
    r.readByte.1 = padded file off ∧ At file (off + 1) r.readByte.2 := by
  obtain ⟨rfl, hindex⟩ := h
  -- at the end of the file the index stays where it is, and so does the minimum
  by_cases hoff : off < r.fuzzFileArray.length
  · have hin : r.fuzzFileIndex.toNat < r.fuzzFileArray.length := by omega
    rw [readByte_inside hin]
    refine ⟨?_, rfl, ?_⟩
    · have hi : r.fuzzFileIndex.toNat = off := by omega
      rw [padded, List.getD_eq_getElem?_getD, List.getElem?_eq_getElem hoff, Option.getD_some]
      simp only [hi]
    · show min (r.fuzzFileIndex + 1).toNat r.fuzzFileArray.length = _
      rw [index_succ hlen hin]
      omega
  · rw [readByte_atEnd (show r.fuzzFileArray.length ≤ _ by omega)]
    refine ⟨?_, rfl, ?_⟩
    · rw [padded, List.getD_eq_getElem?_getD, List.getElem?_eq_none (by omega), Option.getD_none]
    · show min r.fuzzFileIndex.toNat r.fuzzFileArray.length = _
      omega

theorem At.readBytes (h : At file off r) (hlen : file.length < 2 ^ 32) (n : Nat) :
    (r.readBytes n).1 = segment file off n ∧ At file (off + n) (r.readBytes n).2 := by
  induction n generalizing off r with
  | zero => exact ⟨rfl, h⟩
  | succ n ih =>
    obtain ⟨hbyte, hnext⟩ := h.readByte hlen
    obtain ⟨hbytes, hat⟩ := ih hnext
    rw [RandomFile.readBytes, segment_succ, hbyte, hbytes]
    refine ⟨rfl, ?_⟩
    rwa [Nat.add_assoc, Nat.add_comm 1] at hat

/-- A call delivers the next segment. -/
theorem At.getRandom (h : At file off r) (hlen : file.length < 2 ^ 32) (q : Request) :
    (r.getRandom q).1.Carries (segment file off q.width) ∧
      At file (off + q.width) (r.afterCall q) := by
  obtain ⟨hbytes, hat⟩ := h.readBytes hlen q.width
  rw [afterCall, getRandom_eq, hbytes]
  exact ⟨assemble_carries (length_segment ..), hat⟩

theorem replies_carry (h : At file off r) (hlen : file.length < 2 ^ 32) (qs : List Request) :
    List.Forall₂ Reply.Carries (r.replies qs) (segments file off qs) := by
  induction qs generalizing off r with
  | nil => exact .nil
  | cons q qs ih =>
    obtain ⟨hcarries, hnext⟩ := h.getRandom hlen q
    exact .cons hcarries (ih hnext)

theorem At.run (h : At file off r) (hlen : file.length < 2 ^ 32) (qs : List Request) :
    At file (off + totalWidth qs) (Lib.run afterCall r qs) := by
  induction qs generalizing off r with
  | nil => exact h
  | cons q qs ih =>
    have hrest := ih (h.getRandom hlen q).2
    rwa [Nat.add_assoc] at hrest

/-! ### The threads that call -/

/-- A call between `pthread_mutex_lock` and `pthread_mutex_unlock`, with the bytes it
has read. -/
def drawSection : Section RandomFile Request (Request × List UInt8) Reply where
  enter q := (q, [])
  next r k :=
    if k.2.length < k.1.width then some (r.readByte.2, k.1, k.2 ++ [r.readByte.1]) else none
  result k := k.1.assemble k.2

theorem readBytes_concat (r : RandomFile) (n : Nat) :
    r.readBytes (n + 1) = ((r.readBytes n).1 ++ [(r.readBytes n).2.readByte.1],
      (r.readBytes n).2.readByte.2) := by
  induction n generalizing r with
  | zero => rfl
  | succ n ih =>
    rw [RandomFile.readBytes, ih r.readByte.2]
    rfl

/-- Inside, a call has read the next bytes of the stream and no others. -/
theorem readBytes_of_runs {r r' : RandomFile} {q : Request} {k : Request × List UInt8}
    (h : drawSection.Runs r (q, []) r' k) :
    k.1 = q ∧ k.2.length ≤ q.width ∧ r.readBytes k.2.length = (k.2, r') := by
  generalize hk₀ : (q, ([] : List UInt8)) = k₀ at h
  -- over the bytes read inside the call, the last one being new
  induction h with
  | refl =>
    subst hk₀
    exact ⟨rfl, Nat.zero_le _, rfl⟩
  | step _ hnext ih =>
    obtain ⟨hq, -, hread⟩ := ih hk₀
    simp only [drawSection] at hnext
    split at hnext
    · next hlt =>
      obtain ⟨rfl, rfl⟩ := Prod.mk.inj (Option.some.inj hnext)
      refine ⟨hq, ?_, ?_⟩
      · rw [List.length_append, List.length_singleton, ← hq]
        exact hlt
      · rw [List.length_append, List.length_singleton, readBytes_concat, hread]
    · cases hnext

/-- Executed alone, a section is the call. -/
theorem getRandom_of_whole {r r' : RandomFile} {q : Request} {reply : Reply}
    (h : drawSection.Whole r q reply r') : r.getRandom q = (reply, r') := by
  obtain ⟨k, hruns, hnext, rfl⟩ := h
  obtain ⟨hq, hle, hread⟩ := readBytes_of_runs hruns
  have hlength : k.2.length = q.width := by
    simp only [drawSection] at hnext
    split at hnext
    · cases hnext
    · next hge =>
      rw [hq] at hge
      omega
  rw [getRandom_eq, ← hlength, hread, ← hq]
  rfl

theorem replies_of_serial {τ : Type*} {r r' : RandomFile} {log : List (τ × Request × Reply)}
    (h : drawSection.Serial r log r') :
    r.replies (log.map (·.2.1)) = log.map (·.2.2) ∧
      Lib.run afterCall r (log.map (·.2.1)) = r' := by
  induction h with
  | nil => exact ⟨rfl, rfl⟩
  | concat _ hwhole ih =>
    obtain ⟨hreplies, hrun⟩ := ih
    have hcall := getRandom_of_whole hwhole
    rw [List.map_append, List.map_append, List.map_singleton, List.map_singleton, run_concat,
      replies, outputs_concat, hrun, ← replies, hreplies, afterCall, hcall]
    exact ⟨rfl, rfl⟩

end RandomFile

/-- **The random stream.** Calls of any widths to a file shorter than `2 ^ 32` bytes
return, one after the other, the values of its consecutive segments, which partition
the file followed by zeros. Whatever threads make the calls and however they
interleave, what is returned is what the calls return one after the other, in the
order in which they return. -/
theorem random_stream (file : List UInt8) (hlen : file.length < 2 ^ 32) :
    (∀ qs : List Request,
      List.Forall₂ Reply.Carries ((RandomFile.load file).replies qs) (segments file 0 qs) ∧
      (segments file 0 qs).flatten = segment file 0 (totalWidth qs)) ∧
    ∀ (τ : Type) [DecidableEq τ] (events : List (GuardEvent τ Request)),
      let log := returns RandomFile.drawSection (.start (RandomFile.load file)) events
      log.map (·.2.2) = (RandomFile.load file).replies (log.map (·.2.1)) := by
  refine ⟨fun qs => ⟨?_, flatten_segments file 0 qs⟩, fun τ _ events => ?_⟩
  · exact RandomFile.replies_carry (RandomFile.at_load file) hlen qs
  · obtain ⟨r, hserial⟩ := serial_run RandomFile.drawSection (RandomFile.load file) events
    exact (RandomFile.replies_of_serial hserial).1.symm

/-- Three bytes, drawn as two numbers and a string. -/
theorem random_stream_threeBytes :
    ([1, 2, 3] : List UInt8).length < 2 ^ 32 ∧
    List.Forall₂ Reply.Carries
      ((RandomFile.load [1, 2, 3]).replies [.uint16, .uint16, .string 2])
      [[1, 2], [3, 0], [0, 0]] :=
  ⟨by decide, ((random_stream [1, 2, 3] (by decide)).1 [.uint16, .uint16, .string 2]).1⟩

end DistFuzz
