import DistFuzz.Fuzzer.HavocRounds
import DistFuzz.Lib.Diffs

/-!
# Splicing two seeds (FuzzOne.cpp:1141–1225)

`Splice` takes another seed of the queue, looks for the first and the last position at
which it differs from the current one, and if those are far enough apart puts the
beginning of the current seed in front of the rest of the other one. The result goes
through `Havoc`. Positions are `s32` there, and the point of the splice is drawn from
the first difference on, so that the result may be the other seed again.

- `locateDiffs`, `mixOther`, `spliceTurn`, `splice`: the functions, over checked blocks.
- `locateDiffs_spec`: the positions it finds.
- `Parents`, `Mixed`: when a turn proceeds, and what it makes then.
- `mixOther_run`, `suitable_of_mixed`: it makes that exactly then.
- `splice_after_havoc`: the current seed is the one `Havoc` was called for before.
-/

namespace DistFuzz.Fuzzer

open DistFuzz.Lib

/-! ## The functions -/

def spliceCycles : Nat := 15
def spliceHavoc : UInt32 := 32

/-- The body of the loop of `locate_diffs`, for `(f_loc, l_loc)`. -/
def diffStep (ptr1 ptr2 : Block) (loc : Int32 × Int32) (pos : Nat) : Option (Int32 × Int32) := do
  let x ← ptr1.bytes[pos]?
  let y ← ptr2.bytes[pos]?
  if x ≠ y then
    return (if loc.1 = -1 then Int32.ofNat pos else loc.1, Int32.ofNat pos)
  else return loc

/-- `locate_diffs`. -/
def locateDiffs (ptr1 ptr2 : Block) (len : UInt32) : Option (Int32 × Int32) :=
  (List.range len.toNat).foldlM (diffStep ptr1 ptr2) (-1, -1)

/-- What `open` and `read` make of the file of a seed. -/
inductive SeedFile where
  | missing
  | unreadable
  | bytes (content : List UInt8)

/-- A seed of the queue, as `Splice` sees it. -/
structure OtherSeed where
  fileLen : UInt64
  file : SeedFile

/-- What a turn finds: the queue, the position drawn for the other seed (positions are
drawn until it is not the current one), and the outcomes of the executions. -/
structure SpliceInput where
  queue : List OtherSeed
  other : Nat
  units : Nat → UnitResult

/-- The seed at the position drawn, or the next one that is long enough. -/
def SpliceInput.pick (inp : SpliceInput) : Option OtherSeed :=
  (inp.queue.drop inp.other).find? fun s => !(s.fileLen < 2)

/-- A buffer with the mix, unless the seed was not read or is not suitable. -/
inductive MixResult where
  | failed
  | skipped
  | mixed (spliceAt : UInt32) (otherBuf : Block)

/-- `read` into a new buffer: what it returns, as an `s32`, and the buffer. It stores no
more than it is asked for. -/
def readOther (s : OtherSeed) (content : List UInt8) : Option (Int32 × Block) := do
  let otherBuf ← Block.new s.fileLen.toNat
  let data := content.take s.fileLen.toNat
  return (Int32.ofNat data.length, ← otherBuf.write 0 data)

/-- From there to the `memcpy`. -/
def mixOther (len : UInt64) (filemap : Block) (s : OtherSeed) (content : List UInt8) :
    Draw UInt32 MixResult := do
  let (res, otherBuf) ← check (readOther s content)
  -- an `s32` compared with a `u64`
  if res.toInt64.toUInt64 ≠ s.fileLen then return .failed
  else
    let (fDiff, lDiff) ← check (locateDiffs filemap otherBuf (min len s.fileLen).toUInt32)
    if fDiff < 0 ∨ lDiff < 2 ∨ fDiff = lDiff then return .skipped
    else
      let spliceAt := fDiff.toUInt32 + (← randNum (lDiff - fDiff).toUInt32)
      let otherBuf ← check (otherBuf.memcpy 0 filemap 0 spliceAt.toNat)
      return .mixed spliceAt otherBuf

/-- What became of a turn. -/
inductive SpliceTurn where
  | failed
  | skipped
  | havocked (spliceAt : UInt32) (otherBuf : Block) (ret : UInt8) (events : List HavocEvent)

/-- One turn of the loop of `Splice`. -/
def spliceTurn (env : HavocEnv) (len : UInt64) (filemap : Block) (inp : SpliceInput) :
    Draw UInt32 SpliceTurn :=
  match inp.pick with
  | none => pure .skipped
  | some s =>
    match s.file with
    | .missing => pure .failed
    | .unreadable => do
      let _ ← check (Block.new s.fileLen.toNat)
      return .failed
    | .bytes content => do
      match ← mixOther len filemap s content with
      | .failed => return .failed
      | .skipped => return .skipped
      | .mixed spliceAt otherBuf =>
        let (ret, events) ← havoc env s.fileLen otherBuf spliceHavoc
          (UInt32.ofNat inp.queue.length) inp.units
        return .havocked spliceAt otherBuf ret events

/-- `Splice` returns `1` after such a turn. -/
def SpliceTurn.fails : SpliceTurn → Bool
  | .failed => true
  | .skipped => false
  | .havocked _ _ ret _ => ret != 0

/-- The loop of `Splice` from turn `i` on: what it returns, and the turns. -/
def spliceLoop (env : HavocEnv) (len : UInt64) (filemap : Block) (inputs : Nat → SpliceInput) :
    Nat → Nat → Draw UInt32 (UInt8 × List SpliceTurn)
  | 0, _ => pure (0, [])
  | n + 1, i => do
    let turn ← spliceTurn env len filemap (inputs i)
    if turn.fails then return (1, [turn])
    else
      let (ret, later) ← spliceLoop env len filemap inputs n (i + 1)
      return (ret, turn :: later)

/-- `Splice` on a buffer whose first `len` bytes are the current seed. -/
def splice (env : HavocEnv) (len : UInt64) (filemap : Block) (inputs : Nat → SpliceInput) :
    Draw UInt32 (UInt8 × List SpliceTurn) :=
  if (inputs 0).queue.length ≤ 1 ∨ len ≤ 1 then pure (0, [])
  else spliceLoop env len filemap inputs spliceCycles 0

/-! ## `locate_diffs` -/

/-- A position that fits an `s32` is not `-1`. -/
theorem ofNat_ne_neg_one {n : Nat} (hn : n < 2 ^ 31) : Int32.ofNat n ≠ -1 := by
  intro heq
  have htoInt := congrArg Int32.toInt heq
  rw [Int32.toInt_ofNat_of_lt hn] at htoInt
  have hneg : (-1 : Int32).toInt = -1 := rfl
  omega

theorem diffStep_eq {ptr1 ptr2 : Block} {pos : Nat} (h1 : pos < ptr1.size) (h2 : pos < ptr2.size)
    (loc : Int32 × Int32) :
    diffStep ptr1 ptr2 loc pos = some (if ptr1.bytes[pos]? = ptr2.bytes[pos]? then loc
      else (if loc.1 = -1 then Int32.ofNat pos else loc.1, Int32.ofNat pos)) := by
  have hx : ptr1.bytes[pos]? = some (ptr1.bytes[pos]) := List.getElem?_eq_getElem h1
  have hy : ptr2.bytes[pos]? = some (ptr2.bytes[pos]) := List.getElem?_eq_getElem h2
  rw [diffStep, hx, hy]
  by_cases heq : ptr1.bytes[pos] = ptr2.bytes[pos]
  · simp [heq]
  · simp [heq]

/-- What the loop has found before position `n`: nothing, or the first and the last
difference. -/
def Located (a b : List UInt8) (n : Nat) (loc : Int32 × Int32) : Prop :=
  (loc = (-1, -1) ∧ ∀ pos, pos < n → a[pos]? = b[pos]?) ∨
    ∃ f l, loc = (Int32.ofNat f, Int32.ofNat l) ∧ DiffRange a b n f l

theorem located_step {ptr1 ptr2 : Block} {n : Nat} (h1 : n < ptr1.size) (h2 : n < ptr2.size)
    (hn : n < 2 ^ 31) {loc : Int32 × Int32} (h : Located ptr1.bytes ptr2.bytes n loc) :
    ∃ loc', diffStep ptr1 ptr2 loc n = some loc' ∧
      Located ptr1.bytes ptr2.bytes (n + 1) loc' := by
  refine ⟨_, diffStep_eq h1 h2 loc, ?_⟩
  split
  · next heq =>
    rcases h with ⟨hloc, hagree⟩ | ⟨f, l, hloc, hdiff⟩
    · refine .inl ⟨hloc, fun pos hpos => ?_⟩
      rcases Nat.lt_succ_iff_lt_or_eq.mp hpos with hlt | rfl
      · exact hagree pos hlt
      · exact heq
    · exact .inr ⟨f, l, hloc, hdiff.skip heq⟩
  · next hne =>
    rcases h with ⟨rfl, hagree⟩ | ⟨f, l, rfl, hdiff⟩
    · exact .inr ⟨n, n, rfl, diffRange_first hagree hne⟩
    · -- `f_loc` was set and stays
      have hf : f < 2 ^ 31 := (hdiff.le.trans_lt hdiff.lt).trans hn
      rw [if_neg (ofNat_ne_neg_one hf)]
      exact .inr ⟨f, n, rfl, hdiff.extend hne⟩

theorem located_range {ptr1 ptr2 : Block} {n : Nat} (h1 : n ≤ ptr1.size) (h2 : n ≤ ptr2.size)
    (hn : n ≤ 2 ^ 31) :
    ∃ loc, (List.range n).foldlM (diffStep ptr1 ptr2) (-1, -1) = some loc ∧
      Located ptr1.bytes ptr2.bytes n loc := by
  induction n with
  | zero => exact ⟨(-1, -1), rfl, .inl ⟨rfl, fun pos hpos => absurd hpos (Nat.not_lt_zero pos)⟩⟩
  | succ n ih =>
    obtain ⟨loc, hrun, hloc⟩ := ih (Nat.le_of_lt h1) (Nat.le_of_lt h2) (Nat.le_of_lt hn)
    obtain ⟨loc', hstep, hloc'⟩ := located_step h1 h2 hn hloc
    refine ⟨loc', ?_, hloc'⟩
    rw [List.range_succ, List.foldlM_append, hrun]
    simp [hstep]

/-- `locate_diffs` finds the first and the last difference, if there is one. -/
theorem locateDiffs_spec {ptr1 ptr2 : Block} {len : UInt32} (h1 : len.toNat ≤ ptr1.size)
    (h2 : len.toNat ≤ ptr2.size) (hlen : len.toNat ≤ 2 ^ 31) :
    ∃ loc, locateDiffs ptr1 ptr2 len = some loc ∧
      Located ptr1.bytes ptr2.bytes len.toNat loc :=
  located_range h1 h2 hlen

/-! ## One turn -/

/-- The count that `read` returns, cut to an `s32`, equals the length exactly if all was
read and it fits. -/
theorem res_eq_fileLen_iff {n : Nat} {fileLen : UInt64} (hle : n ≤ fileLen.toNat)
    (hlt : fileLen.toNat < 2 ^ 63) :
    (Int32.ofNat n).toInt64.toUInt64 = fileLen ↔ n = fileLen.toNat ∧ n < 2 ^ 31 := by
  constructor
  · intro h
    have hval : (Int32.ofNat n).toInt = fileLen.toNat := by
      rw [← Int32.toInt_toInt64]
      rw [← h] at hlt ⊢
      have hpos : 2 * (Int32.ofNat n).toInt64.toUInt64.toNat < 2 ^ 64 := by omega
      exact BitVec.toInt_eq_toNat_of_lt hpos
    have hbound := (Int32.ofNat n).toInt_lt
    have hn : n < 2 ^ 31 := by omega
    rw [Int32.toInt_ofNat_of_lt hn] at hval
    exact ⟨by omega, hn⟩
  · rintro ⟨heq, hn⟩
    have hmax : (n : Int) ≤ Int32.maxValue.toInt := by
      rw [Int32.toInt_maxValue]
      omega
    rw [Int32.toInt64_ofNat' hmax, Int64.toUInt64_ofNat', heq, UInt64.ofNat_toNat]

/-- The test on the positions found, as a test on numbers. -/
theorem unsuitable_iff {f l : Nat} (hf : f < 2 ^ 31) (hl : l < 2 ^ 31) :
    (Int32.ofNat f < 0 ∨ Int32.ofNat l < 2 ∨ Int32.ofNat f = Int32.ofNat l) ↔ l < 2 ∨ f = l := by
  have htwo : (2 : Int32).toInt = 2 := rfl
  have hzero : (0 : Int32).toInt = 0 := rfl
  rw [Int32.lt_iff_toInt_lt, Int32.lt_iff_toInt_lt, ← Int32.toInt_inj, Int32.toInt_ofNat_of_lt hf,
    Int32.toInt_ofNat_of_lt hl, htwo, hzero]
  omega

/-- A position that fits an `s32`, as a `u32`. -/
theorem toNat_position {n : Nat} (hn : n < 2 ^ 31) : (Int32.ofNat n).toUInt32.toNat = n := by
  rw [Int32.toUInt32_ofNat', UInt32.toNat_ofNat']
  exact Nat.mod_eq_of_lt (by omega)

/-- The distance of two of them. -/
theorem toNat_diff {f l : Nat} (hfl : f < l) (hl : l < 2 ^ 31) :
    (Int32.ofNat l - Int32.ofNat f).toUInt32.toNat = l - f := by
  have hf := toNat_position (hfl.trans hl)
  have hl' := toNat_position hl
  have hle : (Int32.ofNat f).toUInt32 ≤ (Int32.ofNat l).toUInt32 :=
    UInt32.le_iff_toNat_le.mpr (by omega)
  rw [Int32.toUInt32_sub, UInt32.toNat_sub_of_le _ _ hle, hf, hl']

/-- The other seed was read whole, and differs from the current one at positions far
enough apart. -/
structure Suitable (len : UInt64) (filemap : Block) (s : OtherSeed) (data : List UInt8)
    (f l : Nat) : Prop where
  length : data.length = s.fileLen.toNat
  fits : data.length < 2 ^ 31
  diffs : DiffRange filemap.bytes data (min len.toNat data.length) f l
  two_le : 2 ≤ l
  ne : f ≠ l

/-- What a turn makes of such a seed: a buffer of its length with the beginning of the
current seed and the rest of the other one. It is the other seed again exactly if the
splice is at the first difference, and never the current one. -/
structure Mixed (len : UInt64) (filemap : Block) (data : List UInt8) (f l spliceAt : Nat)
    (otherBuf : Block) : Prop where
  range : f ≤ spliceAt ∧ spliceAt < l
  size : otherBuf.size = data.length
  bytes : otherBuf.bytes = crossover filemap.bytes data spliceAt
  ne_other : otherBuf.bytes ≠ data ↔ f < spliceAt
  ne_current : otherBuf.bytes ≠ filemap.bytes.take len.toNat

section Turn

variable {len : UInt64} {filemap : Block} {s : OtherSeed} {content : List UInt8} {f l : Nat}

/-- What `read` leaves: it passes the test exactly if all was read, and then the buffer
holds the file. -/
structure ReadOk (s : OtherSeed) (data : List UInt8) (r : Int32 × Block) : Prop where
  accepted : r.1.toInt64.toUInt64 = s.fileLen ↔ data.length = s.fileLen.toNat ∧ data.length < 2 ^ 31
  bytes : data.length = s.fileLen.toNat → r.2.bytes = data

theorem readOk_of_readOther {r : Int32 × Block} (h : readOther s content = some r) :
    ReadOk s (content.take s.fileLen.toNat) r := by
  obtain ⟨b₀, hnew, hrest⟩ := Option.bind_eq_some_iff.mp h
  obtain ⟨b₁, hwrite, heq⟩ := Option.bind_eq_some_iff.mp hrest
  obtain rfl := Option.some.inj heq
  have hsize := Block.size_of_new hnew
  have hlt : s.fileLen.toNat < 2 ^ 63 := hsize ▸ b₀.length_lt
  refine { accepted := res_eq_fileLen_iff (List.length_take_le _ _) hlt, bytes := fun hall => ?_ }
  show b₁.bytes = _
  rw [Block.bytes_of_write hwrite, hall, List.drop_eq_nil_of_le hsize.le, List.append_nil]

theorem exists_readOther (s : OtherSeed) (content : List UInt8) (hlt : s.fileLen.toNat < 2 ^ 63) :
    ∃ r, readOther s content = some r := by
  obtain ⟨b₀, hnew, hsize⟩ := Block.exists_new hlt
  have hle : (content.take s.fileLen.toNat).length ≤ s.fileLen.toNat := List.length_take_le _ _
  obtain ⟨b₁, hwrite, -⟩ : ∃ b₁, b₀.write 0 (content.take s.fileLen.toNat) = some b₁ ∧
      b₁.size = b₀.size := Block.exists_write (by omega)
  refine ⟨(Int32.ofNat (content.take s.fileLen.toNat).length, b₁), ?_⟩
  simp only [readOther, hnew, hwrite, Option.bind_eq_bind, Option.bind_some, Option.pure_def]

/-- The differences that are found between the current seed and one that was read. -/
theorem exists_located (hsize : len.toNat ≤ filemap.size) {data : List UInt8} {b : Block}
    (hb : b.bytes = data) (hlength : data.length = s.fileLen.toNat) (hfits : data.length < 2 ^ 31) :
    ∃ loc, locateDiffs filemap b (min len s.fileLen).toUInt32 = some loc ∧
      Located filemap.bytes data (min len.toNat data.length) loc := by
  have hn : (min len s.fileLen).toUInt32.toNat = min len.toNat data.length := by
    rw [UInt64.toNat_toUInt32, UInt64.toNat_min, hlength]
    exact Nat.mod_eq_of_lt (by omega)
  have hbsize : b.size = data.length := by rw [Block.size, hb]
  obtain ⟨loc, hloc, hlocated⟩ : ∃ loc,
      locateDiffs filemap b (min len s.fileLen).toUInt32 = some loc ∧
        Located filemap.bytes b.bytes (min len s.fileLen).toUInt32.toNat loc :=
    locateDiffs_spec (by omega) (by omega) (by omega)
  rw [hn, hb] at hlocated
  exact ⟨loc, hloc, hlocated⟩

/-- The mix is as it should be wherever it is made between the differences. -/
theorem mixed_of_memcpy {data : List UInt8} {spliceAt : Nat} {b b' : Block}
    (hdiffs : DiffRange filemap.bytes data (min len.toNat data.length) f l)
    (hrange : f ≤ spliceAt ∧ spliceAt < l) (hb : b.bytes = data)
    (hcopy : b.memcpy 0 filemap 0 spliceAt = some b') :
    Mixed len filemap data f l spliceAt b' := by
  obtain ⟨-, hin, hsize⟩ := Block.bounds_of_memcpy hcopy
  rw [Nat.zero_add] at hin
  have hbytes : b'.bytes = crossover filemap.bytes data spliceAt := by
    rw [Block.bytes_of_memcpy hcopy, hb, crossover]
  have hlt := hdiffs.lt
  refine { range := hrange, size := ?_, bytes := hbytes, ne_other := ?_, ne_current := ?_ }
  · rw [hsize, Block.size, hb]
  · rw [hbytes]
    exact hdiffs.crossover_ne_right_iff hrange.1 hin
  · rw [hbytes]
    exact hdiffs.crossover_ne_left hrange.2.le hin (List.getElem?_take_of_lt (by omega))

/-- A suitable seed is mixed with the current one. The splice is at the first difference
plus what is drawn. -/
theorem mixOther_run (hsize : len.toNat ≤ filemap.size)
    (h : Suitable len filemap s (content.take s.fileLen.toNat) f l) (rand : Stream' UInt32) :
    ∃ spliceAt otherBuf,
      mixOther len filemap s content rand = some (.mixed spliceAt otherBuf, rand.tail) ∧
      spliceAt.toNat = f + rand.head.toNat % (l - f) ∧
      Mixed len filemap (content.take s.fileLen.toNat) f l spliceAt.toNat otherBuf := by
  have hdiffs := h.diffs
  have hlt := hdiffs.lt
  have hle := lt_of_le_of_ne hdiffs.le h.ne
  have hfits := h.fits
  have htwo := h.two_le
  obtain ⟨⟨res, b⟩, hread⟩ := exists_readOther s content (by rw [← h.length]; omega)
  have hok := readOk_of_readOther hread
  obtain ⟨loc, hloc, hlocated⟩ := exists_located hsize (hok.bytes h.length) h.length hfits
  obtain rfl : loc = (Int32.ofNat f, Int32.ofNat l) := by
    rcases hlocated with ⟨-, hagree⟩ | ⟨f', l', rfl, hdiffs'⟩
    · exact absurd (hagree f (by omega)) hdiffs.first
    · obtain ⟨rfl, rfl⟩ := hdiffs.unique hdiffs'
      rfl
  have hunsuitable : ¬(Int32.ofNat f < 0 ∨ Int32.ofNat l < 2 ∨ Int32.ofNat f = Int32.ofNat l) := by
    rw [unsuitable_iff (by omega) (by omega)]
    omega
  have hwidth := toNat_diff hle (show l < 2 ^ 31 by omega)
  have hdraw : rand.head.toNat % (l - f) < l - f := Nat.mod_lt _ (by omega)
  have hat : ((Int32.ofNat f).toUInt32 + rand.head % (Int32.ofNat l - Int32.ofNat f).toUInt32).toNat
      = f + rand.head.toNat % (l - f) := by
    rw [UInt32.toNat_add, UInt32.toNat_mod, hwidth, toNat_position (by omega)]
    exact Nat.mod_eq_of_lt (by omega)
  generalize hspliceAt : (Int32.ofNat f).toUInt32 +
    rand.head % (Int32.ofNat l - Int32.ofNat f).toUInt32 = spliceAt at hat
  have hbsize : b.size = (content.take s.fileLen.toNat).length := by
    rw [Block.size, hok.bytes h.length]
  obtain ⟨b', hcopy, -⟩ : ∃ b', b.memcpy 0 filemap 0 spliceAt.toNat = some b' ∧ b'.size = b.size :=
    Block.exists_memcpy (by omega) (by omega)
  refine ⟨spliceAt, b', ?_, hat, mixed_of_memcpy hdiffs (by omega) (hok.bytes h.length) hcopy⟩
  have hne : (Int32.ofNat l - Int32.ofNat f).toUInt32 ≠ 0 := by
    intro hzero
    rw [hzero, UInt32.toNat_zero] at hwidth
    omega
  rw [mixOther, check_bind hread]
  dsimp only
  rw [if_neg (not_not.mpr (hok.accepted.mpr ⟨h.length, hfits⟩)), check_bind hloc]
  dsimp only
  rw [if_neg hunsuitable, randNum_bind hne, hspliceAt, check_bind hcopy]
  rfl

/-- Only suitable seeds are mixed. -/
theorem suitable_of_mixed (hsize : len.toNat ≤ filemap.size) {spliceAt : UInt32} {otherBuf : Block}
    (h : MayReturn (mixOther len filemap s content) (.mixed spliceAt otherBuf)) :
    ∃ f l, Suitable len filemap s (content.take s.fileLen.toNat) f l := by
  obtain ⟨⟨res, b⟩, hread, h⟩ := h.of_bind
  have hok := readOk_of_readOther (mayReturn_check hread)
  dsimp only at h
  split at h
  · cases mayReturn_pure h
  · next hres =>
    obtain ⟨hlength, hfits⟩ := hok.accepted.mp (not_not.mp hres)
    obtain ⟨loc, hloc, h⟩ := h.of_bind
    obtain ⟨loc', hloc', hlocated⟩ := exists_located hsize (hok.bytes hlength) hlength hfits
    obtain rfl := Option.some.inj ((mayReturn_check hloc).symm.trans hloc')
    split at h
    · cases mayReturn_pure h
    · next hsuitable =>
      rcases hlocated with ⟨rfl, -⟩ | ⟨f, l, rfl, hdiffs⟩
      · exact absurd (.inl (by decide)) hsuitable
      · have hlt := hdiffs.lt
        have hle := hdiffs.le
        rw [unsuitable_iff (by omega) (by omega)] at hsuitable
        exact ⟨f, l, hlength, hfits, hdiffs, by omega, by omega⟩

end Turn

/-! ## Whole calls -/

/-- A turn proceeds with this other seed, whose first and last difference from the
current one are at `f` and `l`. -/
def Parents (len : UInt64) (filemap : Block) (inp : SpliceInput) (data : List UInt8)
    (f l : Nat) : Prop :=
  ∃ s content, inp.pick = some s ∧ s.file = .bytes content ∧
    content.take s.fileLen.toNat = data ∧ Suitable len filemap s data f l

/-- A turn that proceeds mixes the two seeds and hands the result to `Havoc`. -/
theorem spliceTurn_of_parents (env : HavocEnv) {len : UInt64} {filemap : Block}
    (hsize : len.toNat ≤ filemap.size) {inp : SpliceInput} {data : List UInt8} {f l : Nat}
    (h : Parents len filemap inp data f l) (rand : Stream' UInt32) :
    ∃ spliceAt otherBuf ret events rest,
      spliceTurn env len filemap inp rand = some (.havocked spliceAt otherBuf ret events, rest) ∧
      spliceAt.toNat = f + rand.head.toNat % (l - f) ∧
      Mixed len filemap data f l spliceAt.toNat otherBuf := by
  obtain ⟨s, content, hpick, hfile, rfl, hsuitable⟩ := h
  obtain ⟨spliceAt, otherBuf, hmix, hat, hmixed⟩ := mixOther_run hsize hsuitable rand
  have hlen : otherBuf.size = s.fileLen.toNat := hmixed.size.trans hsuitable.length
  have hlt := hsuitable.diffs.lt
  obtain ⟨⟨ret, events⟩, rest, hhavoc, -⟩ := eventOk_havoc env s.fileLen otherBuf
    (by rw [← hsuitable.length]; omega) hlen.ge spliceHavoc (UInt32.ofNat inp.queue.length)
    inp.units rand.tail
  refine ⟨spliceAt, otherBuf, ret, events, rest, ?_, hat, hmixed⟩
  rw [spliceTurn, hpick]
  dsimp only
  rw [hfile]
  dsimp only
  rw [bind_of_run hmix]
  dsimp only
  rw [bind_of_run hhavoc]
  rfl

theorem parents_of_havocked {env : HavocEnv} {len : UInt64} {filemap : Block}
    (hsize : len.toNat ≤ filemap.size) {inp : SpliceInput} {spliceAt : UInt32} {otherBuf : Block}
    {ret : UInt8} {events : List HavocEvent}
    (h : MayReturn (spliceTurn env len filemap inp) (.havocked spliceAt otherBuf ret events)) :
    ∃ data f l, Parents len filemap inp data f l ∧
      Mixed len filemap data f l spliceAt.toNat otherBuf := by
  have hparents : ∃ data f l, Parents len filemap inp data f l := by
    rw [spliceTurn] at h
    split at h
    · cases mayReturn_pure h
    · next s hpick =>
      split at h
      · cases mayReturn_pure h
      · obtain ⟨-, -, h⟩ := h.of_bind
        cases mayReturn_pure h
      · next content hfile =>
        obtain ⟨mix, hmix, h⟩ := h.of_bind
        cases mix with
        | failed => cases mayReturn_pure h
        | skipped => cases mayReturn_pure h
        | mixed spliceAt' otherBuf' =>
          obtain ⟨f, l, hsuitable⟩ := suitable_of_mixed hsize hmix
          exact ⟨_, f, l, s, content, hpick, hfile, rfl, hsuitable⟩
  obtain ⟨data, f, l, hparents⟩ := hparents
  obtain ⟨rand, rest, hrun⟩ := h
  obtain ⟨spliceAt', otherBuf', ret', events', rest', hrun', -, hmixed⟩ :=
    spliceTurn_of_parents env hsize hparents rand
  -- a stream has one outcome
  obtain ⟨heq, -⟩ := Prod.mk.inj (Option.some.inj (hrun.symm.trans hrun'))
  cases heq
  exact ⟨data, f, l, hparents, hmixed⟩

/-- The turns of a call are turns on its inputs. -/
theorem turn_of_spliceLoop {env : HavocEnv} {len : UInt64} {filemap : Block}
    {inputs : Nat → SpliceInput} {n i : Nat} {ret : UInt8} {turns : List SpliceTurn}
    (h : MayReturn (spliceLoop env len filemap inputs n i) (ret, turns)) {k : Nat}
    {turn : SpliceTurn} (hk : turns[k]? = some turn) :
    MayReturn (spliceTurn env len filemap (inputs (i + k))) turn := by
  induction n generalizing i ret turns k with
  | zero =>
    obtain ⟨-, rfl⟩ := Prod.mk.inj (mayReturn_pure h)
    cases hk
  | succ n ih =>
    obtain ⟨first, hfirst, h⟩ := h.of_bind
    -- the first turn of the rest of the call, and those after it
    have hturns : ∃ later, turns = first :: later ∧ (later = [] ∨
        ∃ ret', MayReturn (spliceLoop env len filemap inputs n (i + 1)) (ret', later)) := by
      split at h
      · obtain ⟨-, rfl⟩ := Prod.mk.inj (mayReturn_pure h)
        exact ⟨[], rfl, .inl rfl⟩
      · obtain ⟨⟨ret', later⟩, hlater, h⟩ := h.of_bind
        obtain ⟨-, rfl⟩ := Prod.mk.inj (mayReturn_pure h)
        exact ⟨later, rfl, .inr ⟨ret', hlater⟩⟩
    obtain ⟨later, rfl, hlater⟩ := hturns
    cases k with
    | zero =>
      obtain rfl := Option.some.inj hk
      exact hfirst
    | succ k =>
      rw [List.getElem?_cons_succ] at hk
      rcases hlater with rfl | ⟨ret', hlater⟩
      · cases hk
      · have hturn := ih hlater hk
        rwa [Nat.add_assoc, Nat.add_comm 1 k] at hturn

theorem turn_of_splice {env : HavocEnv} {len : UInt64} {filemap : Block}
    {inputs : Nat → SpliceInput} {ret : UInt8} {turns : List SpliceTurn}
    (h : MayReturn (splice env len filemap inputs) (ret, turns)) {k : Nat} {turn : SpliceTurn}
    (hk : turns[k]? = some turn) : MayReturn (spliceTurn env len filemap (inputs k)) turn := by
  rw [splice] at h
  split at h
  · obtain ⟨-, rfl⟩ := Prod.mk.inj (mayReturn_pure h)
    cases hk
  · have hturn := turn_of_spliceLoop h hk
    rwa [Nat.zero_add] at hturn

/-- `FuzzMain` hands `Splice` the buffer that a successful `Havoc` leaves behind: it is
long enough, and a splice of it is a splice of the seed that `Havoc` was called for. -/
theorem splice_after_havoc {env : HavocEnv} {len : UInt64} {buf : Block}
    {cycles queueInitSize : UInt32} {units : Nat → UnitResult} {events : List HavocEvent}
    (h : MayReturn (havoc env len buf cycles queueInitSize units) (0, events)) :
    len.toNat ≤ (finalBuf ⟨buf, len⟩ events).filemap.size ∧
      ∀ data k, k ≤ len.toNat →
        crossover (finalBuf ⟨buf, len⟩ events).filemap.bytes data k
          = crossover buf.bytes data k := by
  obtain ⟨origBuf, hsize, hseed, -⟩ := havocLoop_of_havoc h
  have hfinal : (finalBuf ⟨buf, len⟩ events).filemap.bytes.take len.toNat
      = buf.bytes.take len.toNat := ((rounds_havoc h).final rfl).bytes
  constructor
  · have hlength := congrArg List.length (hfinal.trans hseed.symm)
    rw [List.length_take] at hlength
    have horig : origBuf.bytes.length = len.toNat := hsize
    rw [Block.size]
    omega
  · intro data k hk
    have htake := congrArg (List.take k) hfinal
    rw [List.take_take, List.take_take, Nat.min_eq_left hk] at htake
    rw [crossover, htake, crossover]

/-- Whatever the other seed and the random numbers, a turn of `Splice` that proceeds
makes no access outside its buffers and hands `Havoc` a buffer of the other seed's
length, with the current seed before the splice and the other one from there on. The
splice is at the first difference plus what is drawn, and before the last one; the
buffer differs from the current seed, and from the other one exactly if the splice is
after the first difference. In every call, that is what all turns that reach `Havoc`
do. -/
theorem splice_mixes_parents (env : HavocEnv) (len : UInt64) (filemap : Block)
    (hsize : len.toNat ≤ filemap.size) :
    (∀ inp data f l, Parents len filemap inp data f l → ∀ rand : Stream' UInt32,
      ∃ spliceAt otherBuf ret events rest,
        spliceTurn env len filemap inp rand = some (.havocked spliceAt otherBuf ret events, rest) ∧
        spliceAt.toNat = f + rand.head.toNat % (l - f) ∧
        Mixed len filemap data f l spliceAt.toNat otherBuf) ∧
    (∀ inputs ret turns k spliceAt otherBuf ret' events,
      MayReturn (splice env len filemap inputs) (ret, turns) →
      turns[k]? = some (.havocked spliceAt otherBuf ret' events) →
        ∃ data f l, Parents len filemap (inputs k) data f l ∧
          Mixed len filemap data f l spliceAt.toNat otherBuf) := by
  refine ⟨fun inp data f l h rand => spliceTurn_of_parents env hsize h rand, ?_⟩
  intro inputs ret turns k spliceAt otherBuf ret' events h hk
  exact parents_of_havocked hsize (turn_of_splice h hk)

/-- The current seed, `abcde`. -/
def abcde : Block := ⟨[97, 98, 99, 100, 101], by decide⟩

/-- The other seed, `axyze`. -/
def axyze : List UInt8 := [97, 120, 121, 122, 101]

/-- A turn of a queue of the two that draws the other one. -/
def takeSecond : SpliceInput :=
  { queue := [⟨5, .bytes abcde.bytes⟩, ⟨5, .bytes axyze⟩]
    other := 1
    units := fun _ => ⟨false, 2⟩ }

theorem parents_takeSecond : Parents 5 abcde takeSecond axyze 1 3 := by
  refine ⟨⟨5, .bytes axyze⟩, axyze, rfl, rfl, rfl, rfl, by decide, ?_, by decide, by decide⟩
  refine { le := by decide, lt := by decide, first := by decide, before := by decide,
           last := by decide, after := fun pos hlt hle => ?_ }
  have hn : min (5 : UInt64).toNat axyze.length = 5 := rfl
  obtain rfl : pos = 4 := by omega
  rfl

/-- With an odd number drawn, the splice is at `2`. -/
theorem splice_mixes_abcde :
    (5 : UInt64).toNat ≤ abcde.size ∧
    ∃ spliceAt otherBuf ret events rest,
      spliceTurn ⟨[], [], 1⟩ 5 abcde takeSecond (Stream'.const 1)
        = some (.havocked spliceAt otherBuf ret events, rest) ∧
      otherBuf.bytes = [97, 98, 121, 122, 101] := by
  have hsize : (5 : UInt64).toNat ≤ abcde.size := by decide
  obtain ⟨spliceAt, otherBuf, ret, events, rest, hrun, hat, hmixed⟩ :=
    (splice_mixes_parents ⟨[], [], 1⟩ 5 abcde hsize).1 _ _ _ _ parents_takeSecond (Stream'.const 1)
  refine ⟨hsize, spliceAt, otherBuf, ret, events, rest, hrun, ?_⟩
  rw [hmixed.bytes, hat]
  rfl

/-- With an even one it is at the first difference, and the result is `axyze` again. -/
theorem splice_copies_axyze :
    Parents 5 abcde takeSecond axyze 1 3 ∧
    ∃ spliceAt otherBuf ret events rest,
      spliceTurn ⟨[], [], 1⟩ 5 abcde takeSecond (Stream'.const 0)
        = some (.havocked spliceAt otherBuf ret events, rest) ∧
      otherBuf.bytes = axyze := by
  obtain ⟨spliceAt, otherBuf, ret, events, rest, hrun, hat, hmixed⟩ :=
    spliceTurn_of_parents ⟨[], [], 1⟩ (by decide) parents_takeSecond (Stream'.const 0)
  refine ⟨parents_takeSecond, spliceAt, otherBuf, ret, events, rest, hrun, ?_⟩
  rw [hmixed.bytes, hat]
  rfl

end DistFuzz.Fuzzer
