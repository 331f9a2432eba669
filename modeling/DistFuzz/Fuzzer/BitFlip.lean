import DistFuzz.Fuzzer.Stages

/-!
# Bit flips (FuzzOne.cpp:3–9, 286–412)

`BitFlip` flips each run of 1, 2 or 4 consecutive bits and each 1, 2 or 4
consecutive bytes, executes the case and flips the same bits back. On the way the
stage 1/1 collects tokens for the automatic dictionary from the checksums of the
traces, and the stage 8/8 finds out which bytes are useful.

- `flipBitOf`: `FLIP_BIT`, whose index has 32 bits; `bitFlip`, `addToken`.
- `flipTrial`, `bitFlipTrials`: what the stages try.
- `bitFlip_logs`: the six stages try exactly that and leave the buffer as it was.
-/

namespace DistFuzz.Fuzzer

open DistFuzz.Lib

/-! ## The stage -/

/-- `FLIP_BIT(_ar, _b)`. -/
def flipBitOf (ar : Block) (b : UInt64) : Option Block := do
  let bf := b.toUInt32
  let x ← ar.bytes[(bf >>> 3).toNat]?
  ar.write (bf >>> 3).toNat [x ^^^ 128 >>> (bf &&& 7).toUInt8]

/-- `for (i = 0; i < flipnum; i++) FLIP_BIT(filemap, stageCur + i);` -/
def flipBits (stageCur : UInt64) (flipnum : UInt8) : Stage Unit :=
  forRange flipnum.toNat () fun i _ => update .fault fun s =>
    (flipBitOf s.filemap (stageCur + UInt64.ofNat i)).map fun b => { s with filemap := b }

/-- `autoToken[token]++`, or a new entry. -/
def TokenMap.increment (m : TokenMap) (token : Token) : TokenMap :=
  if h : token ∈ m.entries.map Prod.fst then
    { entries := m.entries.map fun e => if e.1 = token then (e.1, e.2 + 1) else e
      nodup := by
        have hkeys : (m.entries.map fun e => if e.1 = token then (e.1, e.2 + 1) else e).map Prod.fst
            = m.entries.map Prod.fst := by
          rw [List.map_map]
          refine List.map_congr_left fun e _ => ?_
          show (if e.1 = token then (e.1, e.2 + 1) else e).1 = e.1
          split <;> rfl
        rw [hkeys]
        exact m.nodup }
  else
    { entries := m.entries ++ [(token, 1)]
      nodup := by
        rw [List.map_append, List.map_singleton]
        exact m.nodup.append (List.nodup_singleton _) (List.disjoint_singleton.mpr h) }

/-- Two bytes that equal an interesting value; the comparison is one of `int`s, so no
negative one is found. -/
def isInteresting16 (bytes : List UInt8) : Bool :=
  (interestingBytes ++ interestingWords).any fun v => ((wordAt 2 bytes 0).toNat : Int) = v

/-- Four bytes that equal an interesting value. -/
def isInteresting32 (bytes : List UInt8) : Bool :=
  interesting32.any fun v => wordAt 4 bytes 0 = v

/-- `AddToken`. -/
def addToken (pointedToken : List (List UInt8)) (autoToken : TokenMap) (token : Token) :
    TokenMap :=
  if token.bytes.length = 2 ∧ isInteresting16 token.bytes then autoToken
  else if token.bytes.length = 4 ∧ isInteresting32 token.bytes then autoToken
  else if token.bytes ∈ pointedToken then autoToken
  else autoToken.increment token

/-- The local `token`, which does not grow beyond `MAX_TOKEN_SIZE`. -/
structure Candidate where
  bytes : List UInt8
  le_max : bytes.length ≤ maxTokenSize

/-- `token.clear()`. -/
def Candidate.empty : Candidate := ⟨[], Nat.zero_le _⟩

/-- `if (token.size() < MAX_TOKEN_SIZE) token += byte;` -/
def Candidate.push (c : Candidate) (byte : UInt8) : Candidate :=
  if h : c.bytes.length < maxTokenSize then
    ⟨c.bytes ++ [byte], by rwa [List.length_append, List.length_singleton]⟩
  else c

/-- `if (token.size() >= MIN_TOKEN_SIZE) AddToken(token);` -/
def Candidate.toAdd (c : Candidate) : List Token :=
  if h : minTokenSize ≤ c.bytes.length then [⟨c.bytes, h, c.le_max⟩] else []

/-- The locals `prevcksum` and `token`. -/
structure Collector where
  prevcksum : UInt32
  token : Candidate

/-- The end of a turn of the stage 1/1 at the first bit of a byte: the collector after
it, and the token that goes to `AddToken`. -/
def collectByte (qCksum : UInt32) (atEnd : Bool) (byte : UInt8) (cksum : UInt32) (c : Collector) :
    Collector × List Token :=
  let (c, tokens) :=
    if cksum ≠ c.prevcksum then (⟨cksum, .empty⟩, c.token.toAdd)
    else if atEnd then (⟨c.prevcksum, c.token.push byte⟩, (c.token.push byte).toAdd)
    else (c, [])
  (if cksum ≠ qCksum then ⟨c.prevcksum, c.token.push byte⟩ else c, tokens)

section Stage

variable (target : Target) (pointedToken : List (List UInt8))

/-- `AddToken(token)` on the globals. -/
def addTokens (tokens : List Token) : Stage Unit := update .fault fun s => some
  { s with
    autoToken := tokens.foldl (addToken pointedToken) s.autoToken
    added := s.added ++ tokens }

/-- Whether a turn is skipped: its window has several bytes, none of them useful. -/
def skipTurn (flipnum flipstep : UInt8) (stageCur : UInt64) : Stage Bool :=
  if flipnum ≠ 8 ∧ flipstep = 8 then do
    return !(← anyUseful (stageCur >>> 3).toNat (flipnum / flipstep).toNat)
  else return false

/-- The turn was at the first bit of a byte in the stage 1/1: tokens are collected. -/
def collectAt (qCksum : UInt32) (stageMax stageCur : UInt64) (cksum : UInt32) (c : Collector) :
    Stage Collector := do
  let byte ← access .fault fun s => s.filemap.bytes[(stageCur >>> 3).toNat]?
  let (c, tokens) := collectByte qCksum (stageCur == stageMax - 1) byte cksum c
  addTokens pointedToken tokens
  return c

/-- The turn was one of the stage 8/8: `useful_byte` is learnt. -/
def markAt (qCksum : UInt32) (stageCur : UInt64) (cksum : UInt32) : Stage Unit := do
  let useful ← usefulAt (stageCur >>> 3).toNat
  if !useful && cksum != qCksum then
    update .fault fun s =>
      some { s with usefulByte := s.usefulByte.set (stageCur >>> 3).toNat true }
  else return

/-- The end of a turn. -/
def learn (flipnum flipstep : UInt8) (qCksum : UInt32) (stageMax stageCur : UInt64) (cksum : UInt32)
    (c : Collector) : Stage Collector := do
  if flipnum = 1 ∧ flipstep = 1 then
    if stageCur % 8 = 0 then collectAt pointedToken qCksum stageMax stageCur cksum c
    else return c
  else if flipnum = 8 ∧ flipstep = 8 then
    markAt qCksum stageCur cksum
    return c
  else return c

/-- Flip the bits, execute the case and flip them back. -/
def flipAndBack (len : UInt64) (flipnum : UInt8) (stageCur : UInt64) : Stage UInt32 := do
  flipBits stageCur flipnum
  let cksum ← Stage.fuzzUnit target ⟨stageCur.toNat, flipnum.toNat⟩ StageState.filemap len
  flipBits stageCur flipnum
  return cksum

/-- One turn of `BitFlip`. -/
def bitFlipTurn (len : UInt64) (flipnum flipstep : UInt8) (qCksum : UInt32)
    (stageMax stageCur : UInt64) (c : Collector) : Stage Collector := do
  if ← skipTurn flipnum flipstep stageCur then return c
  else
    let cksum ← flipAndBack target len flipnum stageCur
    learn pointedToken flipnum flipstep qCksum stageMax stageCur cksum c

/-- How often `for (cur = 0; cur < max; cur += step)` turns. -/
def strideTurns (max step : Nat) : Nat := (max + step - 1) / step

/-- `BitFlip`. -/
def bitFlip (len : UInt64) (flipnum flipstep : UInt8) (qCksum : UInt32) : Stage Unit := do
  if len <<< 3 < (flipnum - flipstep).toUInt64 then return
  let stageMax := (len <<< 3) - (flipnum - flipstep).toUInt64
  let _ ← forRange (strideTurns stageMax.toNat flipstep.toNat) (⟨qCksum, .empty⟩ : Collector)
    fun k c => bitFlipTurn target pointedToken len flipnum flipstep qCksum stageMax
      (UInt64.ofNat (k * flipstep.toNat)) c

end Stage

/-! ## Flipping in the buffer -/

/-- `FLIP_BIT` flips the bit that the low 32 bits of the index name. -/
theorem flipBitOf_eq {ar : Block} {b : UInt64} (h : b.toNat % 2 ^ 32 < 8 * ar.size) :
    ∃ ar', flipBitOf ar b = some ar' ∧ ar'.bytes = flipAt ar.bytes (b.toNat % 2 ^ 32) := by
  -- the macro keeps the index in a `u32`
  have hbf : b.toUInt32.toNat = b.toNat % 2 ^ 32 := UInt64.toNat_toUInt32 b
  have hbyte : (b.toUInt32 >>> 3).toNat = b.toNat % 2 ^ 32 / 8 := by
    rw [UInt32.toNat_shiftRight, hbf]
    exact Nat.shiftRight_eq_div_pow _ 3
  have hbit : (b.toUInt32 &&& 7).toUInt8 = UInt8.ofNat (b.toNat % 2 ^ 32 % 8) := by
    refine UInt8.toNat_inj.mp ?_
    rw [UInt32.toNat_toUInt8, UInt32.toNat_and, hbf, UInt8.toNat_ofNat',
      show (7 : UInt32).toNat = 2 ^ 3 - 1 from rfl, Nat.and_two_pow_sub_one_eq_mod]
  generalize hp : b.toNat % 2 ^ 32 = p at *
  have hin : p / 8 < ar.bytes.length := by
    change p < 8 * ar.bytes.length at h
    omega
  have hfit : p / 8 + [ar.bytes[p / 8] ^^^ 128 >>> UInt8.ofNat (p % 8)].length ≤ ar.size := hin
  obtain ⟨ar', hwrite, hbytes⟩ := Block.write_eq hfit
  refine ⟨ar', ?_, ?_⟩
  · rw [flipBitOf, hbyte, hbit, List.getElem?_eq_getElem hin]
    exact hwrite
  · rw [hbytes, flipAt, List.modify_eq_take_cons_drop hin]
    rfl

/-- What a state says besides the buffer. Stages write to the buffer and undo it, and whatever is
of this kind survives that. -/
def FilemapFree (R : StageState → Prop) : Prop := ∀ s b, R s → R { s with filemap := b }

/-- The buffer holds these bytes, and besides `R`. The two are kept apart because a flip changes
the first and never the second. -/
def Holds (bytes : List UInt8) (R : StageState → Prop) (s : StageState) : Prop :=
  s.filemap.bytes = bytes ∧ R s

/-- The bits that the turn at `cur` flips: the index wraps around at 32 bits. -/
def flipRun (cur n : Nat) : List Nat := (List.range n).map fun t => (cur + t) % 2 ^ 32

theorem flipBits_logs {target : Target} {bytes : List UInt8} {R : StageState → Prop}
    (hR : FilemapFree R) {stageCur : UInt64} {flipnum : UInt8}
    (hfit : stageCur.toNat + flipnum.toNat ≤ 8 * bytes.length)
    (hlt : stageCur.toNat + flipnum.toNat < 2 ^ 64) :
    StageLogs target (Holds bytes R) (flipBits stageCur flipnum)
      (fun _ => Holds (flipAll bytes (flipRun stageCur.toNat flipnum.toNat)) R) [] := by
  have hturn : ∀ i, i < flipnum.toNat → ∀ _ : Unit, StageLogs target
      (Holds (flipAll bytes (flipRun stageCur.toNat i)) R)
      (update .fault fun s => (flipBitOf s.filemap (stageCur + UInt64.ofNat i)).map
        fun b => { s with filemap := b })
      (fun _ => Holds (flipAll bytes (flipRun stageCur.toNat (i + 1))) R) [] := by
    intro i hi _
    refine logs_update fun s hs => ?_
    have hcur : (stageCur + UInt64.ofNat i).toNat = stageCur.toNat + i := by
      have hof : (UInt64.ofNat i).toNat = i :=
        UInt64.toNat_ofNat_of_lt (Nat.lt_of_le_of_lt (by omega) hlt)
      rw [UInt64.toNat_add, hof, Nat.mod_eq_of_lt (by omega)]
    have hmod := Nat.mod_le (stageCur.toNat + i) (2 ^ 32)
    -- the index that is left of it is even smaller, so it is in the buffer
    have hin : (stageCur + UInt64.ofNat i).toNat % 2 ^ 32 < 8 * s.filemap.size := by
      rw [hcur, Block.size, hs.1, length_flipAll]
      omega
    obtain ⟨b, hflip, hb⟩ := flipBitOf_eq hin
    refine ⟨{ s with filemap := b }, by rw [hflip, Option.map_some], ⟨?_, hR s b hs.2⟩, rfl⟩
    rw [hb, hs.1, hcur, flipRun, flipRun, List.range_succ, List.map_append, ← flipAll_append]
    rfl
  have hall := logs_forRange (fun i _ => Holds (flipAll bytes (flipRun stageCur.toNat i)) R)
    (fun _ => []) hturn ()
  rwa [List.flatMap_eq_nil_iff.mpr fun _ _ => rfl] at hall

/-- The trial of the turn at `cur`. -/
def flipTrial (seed : Block) (len : UInt64) (num cur : Nat) : Trial :=
  ⟨⟨cur, num⟩, caseOf len (flipAll seed.bytes (flipRun cur num))⟩

theorem flipRun_lt {cur n size : Nat} (h : cur + n ≤ 8 * size) :
    ∀ p ∈ flipRun cur n, p < 8 * size := by
  intro p hp
  obtain ⟨t, ht, rfl⟩ := List.mem_map.mp hp
  rw [List.mem_range] at ht
  exact Nat.lt_of_le_of_lt (Nat.mod_le _ _) (by omega)

theorem flipRun_nodup {cur n : Nat} (hn : n ≤ 32) : (flipRun cur n).Nodup := by
  refine List.Nodup.map_on ?_ List.nodup_range
  intro t ht u hu h
  rw [List.mem_range] at ht hu
  omega

/-- A run that does not wrap around. -/
theorem mem_flipRun {cur n b : Nat} (h : cur + n ≤ 2 ^ 32) :
    b ∈ flipRun cur n ↔ cur ≤ b ∧ b < cur + n := by
  rw [flipRun, List.mem_map]
  constructor
  · rintro ⟨t, ht, rfl⟩
    rw [List.mem_range] at ht
    omega
  · rintro ⟨hle, hlt⟩
    exact ⟨b - cur, List.mem_range.mpr (by omega), by omega⟩

/-- **Flip, execute, flip back**: one trial, and the buffer is the seed again. -/
theorem flipAndBack_logs {target : Target} {seed : Block} {len stageCur : UInt64}
    {flipnum : UInt8} {R : StageState → Prop} {R' : UInt32 → StageState → Prop}
    (hR : FilemapFree R) (hR' : ∀ cksum, FilemapFree (R' cksum)) (hlen : len.toNat = seed.size)
    (hfit : stageCur.toNat + flipnum.toNat ≤ 8 * seed.size)
    (hlt : stageCur.toNat + flipnum.toNat < 2 ^ 64)
    (htry : ∀ s, R s → R' (target s.trials.length (flipTrial seed len flipnum.toNat
      stageCur.toNat).case).cksum (s.tried (flipTrial seed len flipnum.toNat stageCur.toNat))) :
    StageLogs target (Holds seed.bytes R) (flipAndBack target len flipnum stageCur)
      (fun cksum => Holds seed.bytes (R' cksum))
      [flipTrial seed len flipnum.toNat stageCur.toNat] := by
  have hunit : StageLogs target
      (Holds (flipAll seed.bytes (flipRun stageCur.toNat flipnum.toNat)) R)
      (Stage.fuzzUnit target ⟨stageCur.toNat, flipnum.toNat⟩ StageState.filemap len)
      (fun cksum => Holds (flipAll seed.bytes (flipRun stageCur.toNat flipnum.toNat)) (R' cksum))
      [flipTrial seed len flipnum.toNat stageCur.toNat] := by
    refine fuzzUnit_logs fun s hs => ⟨?_, hs.1, htry s hs.2⟩
    have hsize : len.toNat = s.filemap.size := by
      rw [hlen, Block.size, Block.size, hs.1, length_flipAll]
    rw [read_case hsize.le, hs.1]
  have hback : ∀ cksum, StageLogs target
      (Holds (flipAll seed.bytes (flipRun stageCur.toNat flipnum.toNat)) (R' cksum))
      (do flipBits stageCur flipnum; return cksum)
      (fun cksum => Holds seed.bytes (R' cksum)) [] := by
    intro cksum
    refine (flipBits_logs (hR' cksum) (by rwa [length_flipAll]) hlt).before fun _ => ?_
    refine logs_pure fun s hs => ?_
    -- each bit was flipped twice
    rwa [flipAll_twice (flipRun_lt hfit)] at hs
  exact (flipBits_logs hR hfit hlt).before fun _ => hunit.after hback

/-! ## The turns -/

/-- The pairs of `flipnum` and `flipstep` that `BitFlip` is called with. -/
def bitFlipKinds : List (UInt8 × UInt8) := [(1, 1), (2, 1), (4, 1), (8, 8), (16, 8), (32, 8)]

/-- One stage after the other. -/
theorem forall_bitFlipKinds {P : UInt8 × UInt8 → Prop} :
    (∀ kind ∈ bitFlipKinds, P kind) ↔
      P (1, 1) ∧ P (2, 1) ∧ P (4, 1) ∧ P (8, 8) ∧ P (16, 8) ∧ P (32, 8) := by
  simp [bitFlipKinds]

/-- What the six stages have in common. -/
theorem bitFlipKinds_spec : ∀ kind ∈ bitFlipKinds,
    (kind.1 - kind.2).toUInt64.toNat = kind.1.toNat - kind.2.toNat ∧
      kind.2.toNat ≤ kind.1.toNat ∧ (kind.1 / kind.2).toNat * kind.2.toNat = kind.1.toNat ∧
      (kind.2 = 1 ∧ kind.2.toNat = 1 ∧ kind.1.toNat ≤ 4 ∨
        kind.2 = 8 ∧ kind.2.toNat = 8 ∧ kind.1.toNat % 8 = 0) :=
  forall_bitFlipKinds.mpr (by decide)

theorem bitFlipKinds_pos : ∀ kind ∈ bitFlipKinds, 0 < kind.1.toNat :=
  forall_bitFlipKinds.mpr (by decide)

theorem bitFlipKinds_le : ∀ kind ∈ bitFlipKinds, kind.1.toNat ≤ 32 :=
  forall_bitFlipKinds.mpr (by decide)

/-- `len << 3`. -/
def bitLen (len : UInt64) : Nat := (len <<< 3).toNat

theorem bitLen_eq (len : UInt64) : bitLen len = 8 * len.toNat % 2 ^ 64 := by
  rw [bitLen, UInt64.toNat_shiftLeft, show (3 : UInt64).toNat % 64 = 3 from rfl, Nat.shiftLeft_eq,
    Nat.mul_comm]

theorem bitLen_le (len : UInt64) : bitLen len ≤ 8 * len.toNat :=
  bitLen_eq len ▸ Nat.mod_le _ _

theorem bitLen_seedLen_le (seed : Block) : bitLen (seedLen seed) ≤ 8 * seed.size :=
  toNat_seedLen seed ▸ bitLen_le _

theorem bitLen_mod (len : UInt64) : bitLen len % 8 = 0 := by
  rw [bitLen_eq]
  omega

/-- How many turns a stage has. -/
def flipTurns (len : UInt64) (num step : Nat) : Nat := strideTurns (bitLen len - (num - step)) step

section Turns

variable {flipnum flipstep : UInt8}

/-- The last window ends at the last bit. -/
theorem lt_flipTurns_iff (hkind : (flipnum, flipstep) ∈ bitFlipKinds) (len : UInt64) (k : Nat) :
    k < flipTurns len flipnum.toNat flipstep.toNat
      ↔ k * flipstep.toNat + flipnum.toNat ≤ bitLen len := by
  obtain ⟨-, hle, -, ⟨-, hone, -⟩ | ⟨-, height, hmod⟩⟩ := bitFlipKinds_spec _ hkind
  · dsimp only at hle hone
    rw [flipTurns, strideTurns, hone]
    omega
  · dsimp only at hle height hmod
    have hlen := bitLen_mod len
    rw [flipTurns, strideTurns, height]
    omega

/-- `useful_byte` has an entry for each byte, and only the stage 8/8 may change them. -/
def Marks (size : Nat) (useful : List Bool) (flipnum : UInt8) (s : StageState) : Prop :=
  s.usefulByte.length = size ∧ (flipnum ≠ 8 → s.usefulByte = useful)

theorem filemapFree_marks (size : Nat) (useful : List Bool) :
    FilemapFree (Marks size useful flipnum) := fun _ _ h => h

/-- The turn at `cur` is skipped. -/
def skipsAt (useful : List Bool) (flipnum flipstep : UInt8) (cur : Nat) : Bool :=
  decide (flipnum ≠ 8 ∧ flipstep = 8) && !usefulIn useful (cur / 8) (flipnum / flipstep).toNat

variable {target : Target} {seed : Block} {useful : List Bool}

theorem toNat_shiftRight_three (x : UInt64) : (x >>> 3).toNat = x.toNat / 8 := by
  rw [UInt64.toNat_shiftRight]
  exact Nat.shiftRight_eq_div_pow _ 3

theorem skipTurn_logs (hkind : (flipnum, flipstep) ∈ bitFlipKinds)
    (huseful : useful.length = seed.size) {stageCur : UInt64}
    (hfit : stageCur.toNat + flipnum.toNat ≤ 8 * seed.size) :
    StageLogs target (Holds seed.bytes (Marks seed.size useful flipnum))
      (skipTurn flipnum flipstep stageCur)
      (fun b s => b = skipsAt useful flipnum flipstep stageCur.toNat ∧
        Holds seed.bytes (Marks seed.size useful flipnum) s) [] := by
  rw [skipTurn, skipsAt]
  by_cases hseveral : flipnum ≠ 8 ∧ flipstep = 8
  · rw [if_pos hseveral, decide_eq_true hseveral, Bool.true_and, toNat_shiftRight_three]
    -- the window ends in the buffer, so `useful_byte` is read inside its bounds
    have hend : stageCur.toNat / 8 + (flipnum / flipstep).toNat ≤ useful.length := by
      obtain ⟨-, -, hnum, -⟩ := bitFlipKinds_spec _ hkind
      have height : flipstep.toNat = 8 := by rw [hseveral.2]; rfl
      dsimp only at hnum
      rw [height] at hnum
      omega
    refine (anyUseful_logs (fun s hs => hs.2.2 hseveral.1) hend).before fun b => ?_
    refine logs_pure fun s hs => ⟨?_, hs.2⟩
    rw [hs.1]
  · rw [if_neg hseveral, decide_eq_false hseveral, Bool.false_and]
    exact logs_pure fun s hs => ⟨rfl, hs⟩

section Learn

variable {pointedToken : List (List UInt8)} {qCksum cksum : UInt32} {stageMax stageCur : UInt64}

theorem collectAt_logs (c : Collector) (hin : stageCur.toNat < 8 * seed.size)
    {c' : Collector} {tokens : List Token}
    (hout : collectByte qCksum (stageCur == stageMax - 1) (seed.bytes.getD (stageCur.toNat / 8) 0)
      cksum c = (c', tokens))
    {R : StageState → Prop} {R' : Collector → StageState → Prop}
    (hR : ∀ s, R s → R' c' { s with
      autoToken := tokens.foldl (addToken pointedToken) s.autoToken
      added := s.added ++ tokens }) :
    StageLogs target (Holds seed.bytes R)
      (collectAt pointedToken qCksum stageMax stageCur cksum c)
      (fun c => Holds seed.bytes (R' c)) [] := by
  -- the byte of the last bit that was flipped
  have hlt : stageCur.toNat / 8 < seed.bytes.length := by
    change stageCur.toNat < 8 * seed.bytes.length at hin
    omega
  have hread : StageLogs target (Holds seed.bytes R)
      (access .fault fun s => s.filemap.bytes[(stageCur >>> 3).toNat]?)
      (fun byte s => byte = seed.bytes.getD (stageCur.toNat / 8) 0 ∧ Holds seed.bytes R s) [] := by
    refine logs_access fun s hs => ⟨_, ?_, rfl, hs⟩
    rw [toNat_shiftRight_three, hs.1, List.getElem?_eq_getElem hlt, List.getD_eq_getElem _ _ hlt]
  have hadd : StageLogs target (Holds seed.bytes R) (addTokens pointedToken tokens)
      (fun _ => Holds seed.bytes (R' c')) [] :=
    logs_update fun s hs => ⟨_, rfl, ⟨hs.1, hR s hs.2⟩, rfl⟩
  refine hread.before fun byte => logs_of_start fun s hs => ?_
  rw [hs.1, hout]
  exact (hadd.mono (fun s hs => hs.2) fun _ s hs => hs).before fun _ => logs_pure fun s hs => hs

theorem markAt_logs (hin : stageCur.toNat < 8 * seed.size) :
    StageLogs target (Holds seed.bytes (Marks seed.size useful 8))
      (markAt qCksum stageCur cksum)
      (fun _ => Holds seed.bytes (Marks seed.size useful 8)) [] := by
  have hread : StageLogs target (Holds seed.bytes (Marks seed.size useful 8))
      (usefulAt (stageCur >>> 3).toNat)
      (fun _ => Holds seed.bytes (Marks seed.size useful 8)) [] := by
    refine logs_access fun s hs => ⟨_, List.getElem?_eq_getElem ?_, hs⟩
    rw [toNat_shiftRight_three, hs.2.1]
    omega
  refine hread.before fun b => ?_
  -- a byte is marked once, and only if its inversion led to another trace
  by_cases hmark : (!b && cksum != qCksum) = true
  · rw [if_pos hmark]
    refine logs_update fun s hs => ⟨_, rfl, ⟨hs.1, ?_, fun h => absurd rfl h⟩, rfl⟩
    rw [List.length_set, hs.2.1]
  · rw [if_neg hmark]
    exact logs_pure fun s hs => hs

theorem learn_logs (c : Collector) (hin : stageCur.toNat < 8 * seed.size) :
    StageLogs target (Holds seed.bytes (Marks seed.size useful flipnum))
      (learn pointedToken flipnum flipstep qCksum stageMax stageCur cksum c)
      (fun _ => Holds seed.bytes (Marks seed.size useful flipnum)) [] := by
  rw [learn]
  -- two of the six kinds learn something: 1/1 the tokens, 8/8 the marks
  by_cases hfirst : flipnum = 1 ∧ flipstep = 1
  · rw [if_pos hfirst]
    by_cases hmod : stageCur % 8 = 0
    · rw [if_pos hmod]
      exact collectAt_logs c hin rfl fun s hs => hs
    · rw [if_neg hmod]
      exact logs_pure fun s hs => hs
  · rw [if_neg hfirst]
    by_cases hbytes : flipnum = 8 ∧ flipstep = 8
    · rw [if_pos hbytes, hbytes.1]
      exact (markAt_logs hin).before fun _ => logs_pure fun s hs => hs
    · rw [if_neg hbytes]
      exact logs_pure fun s hs => hs

end Learn

/-- The trial of a turn, or none. -/
def flipTurnTrials (seed : Block) (useful : List Bool) (len : UInt64) (flipnum flipstep : UInt8)
    (cur : Nat) : List Trial :=
  if skipsAt useful flipnum flipstep cur then [] else [flipTrial seed len flipnum.toNat cur]

theorem bitFlipTurn_logs {pointedToken : List (List UInt8)} {qCksum : UInt32}
    {len stageMax stageCur : UInt64} (hkind : (flipnum, flipstep) ∈ bitFlipKinds)
    (hlen : len.toNat = seed.size) (huseful : useful.length = seed.size)
    (hfit : stageCur.toNat + flipnum.toNat ≤ bitLen len) (c : Collector) :
    StageLogs target (Holds seed.bytes (Marks seed.size useful flipnum))
      (bitFlipTurn target pointedToken len flipnum flipstep qCksum stageMax stageCur c)
      (fun _ => Holds seed.bytes (Marks seed.size useful flipnum))
      (flipTurnTrials seed useful len flipnum flipstep stageCur.toNat) := by
  have hbits : bitLen len < 2 ^ 64 := UInt64.toNat_lt _
  -- the run is inside the bits of the `u64`, and so inside the seed
  have hsize : stageCur.toNat + flipnum.toNat ≤ 8 * seed.size :=
    hlen ▸ Nat.le_trans hfit (bitLen_le len)
  have hpos : 0 < flipnum.toNat := bitFlipKinds_pos _ hkind
  refine (skipTurn_logs hkind huseful hsize).before fun b => logs_of_start fun s hs => ?_
  rw [hs.1]
  refine logs_ite (fun _ => logs_pure fun s hs => hs.2) fun _ => ?_
  have hflip : StageLogs target (Holds seed.bytes (Marks seed.size useful flipnum))
      (flipAndBack target len flipnum stageCur)
      (fun _ => Holds seed.bytes (Marks seed.size useful flipnum))
      [flipTrial seed len flipnum.toNat stageCur.toNat] :=
    flipAndBack_logs (filemapFree_marks seed.size useful)
      (fun _ => filemapFree_marks seed.size useful) hlen hsize (Nat.lt_of_le_of_lt hfit hbits)
      fun s hs => hs
  exact Logs.after (hflip.mono (fun s hs => hs.2) fun _ s hs => hs) fun cksum =>
    learn_logs c (by omega)

/-- The trials of a stage. -/
def bitFlipTrials (seed : Block) (useful : List Bool) (len : UInt64) (flipnum flipstep : UInt8) :
    List Trial :=
  (List.range (flipTurns len flipnum.toNat flipstep.toNat)).flatMap fun k =>
    flipTurnTrials seed useful len flipnum flipstep (k * flipstep.toNat)

/-- `stageMax`. -/
def flipMax (len : UInt64) (flipnum flipstep : UInt8) : UInt64 :=
  len <<< 3 - (flipnum - flipstep).toUInt64

/-- `BitFlip` is its loop: what is too short has no turns anyway. -/
theorem bitFlip_eq (pointedToken : List (List UInt8)) (qCksum : UInt32) (len : UInt64)
    (hkind : (flipnum, flipstep) ∈ bitFlipKinds) :
    bitFlip target pointedToken len flipnum flipstep qCksum = (do
      let _ ← forRange (flipTurns len flipnum.toNat flipstep.toNat)
        (⟨qCksum, .empty⟩ : Collector) fun k c =>
          bitFlipTurn target pointedToken len flipnum flipstep qCksum
            (flipMax len flipnum flipstep) (UInt64.ofNat (k * flipstep.toNat)) c) := by
  obtain ⟨hdiff, -⟩ := bitFlipKinds_spec _ hkind
  dsimp only at hdiff
  rw [bitFlip]
  -- the guard of the source is there for the subtraction in `stageMax`, which would wrap
  by_cases hshort : len <<< 3 < (flipnum - flipstep).toUInt64
  · rw [if_pos hshort]
    rw [UInt64.lt_iff_toNat_lt, hdiff] at hshort
    have hnone : flipTurns len flipnum.toNat flipstep.toNat = 0 := by
      refine Nat.eq_zero_of_not_pos fun h => ?_
      rw [lt_flipTurns_iff hkind, bitLen] at h
      omega
    rw [hnone]
    rfl
  · rw [if_neg hshort]
    rw [UInt64.lt_iff_toNat_lt, hdiff] at hshort
    have hmax : (flipMax len flipnum flipstep).toNat
        = bitLen len - (flipnum.toNat - flipstep.toNat) := by
      rw [flipMax, UInt64.toNat_sub_of_le _ _ (by rw [UInt64.le_iff_toNat_le, hdiff]; omega),
        hdiff]
      rfl
    rw [flipTurns, ← hmax]
    rfl

/-- `stageCur` in turn `k`. -/
theorem toNat_flipCur (hkind : (flipnum, flipstep) ∈ bitFlipKinds) {len : UInt64} {k : Nat}
    (hk : k < flipTurns len flipnum.toNat flipstep.toNat) :
    (UInt64.ofNat (k * flipstep.toNat)).toNat = k * flipstep.toNat := by
  rw [lt_flipTurns_iff hkind] at hk
  have hbits : bitLen len < 2 ^ 64 := UInt64.toNat_lt _
  exact UInt64.toNat_ofNat_of_lt (Nat.lt_of_le_of_lt (by omega) hbits)

/-- **The bit flips** try each run of bits, or each window with a useful byte, and leave
the buffer as it was. -/
theorem bitFlip_logs {pointedToken : List (List UInt8)} {qCksum : UInt32} {len : UInt64}
    (hkind : (flipnum, flipstep) ∈ bitFlipKinds) (hlen : len.toNat = seed.size)
    (huseful : useful.length = seed.size) :
    StageLogs target (Holds seed.bytes (Marks seed.size useful flipnum))
      (bitFlip target pointedToken len flipnum flipstep qCksum)
      (fun _ => Holds seed.bytes (Marks seed.size useful flipnum))
      (bitFlipTrials seed useful len flipnum flipstep) := by
  have hturn : ∀ k, k < flipTurns len flipnum.toNat flipstep.toNat → ∀ c, StageLogs target
      (Holds seed.bytes (Marks seed.size useful flipnum))
      (bitFlipTurn target pointedToken len flipnum flipstep qCksum (flipMax len flipnum flipstep)
        (UInt64.ofNat (k * flipstep.toNat)) c)
      (fun _ => Holds seed.bytes (Marks seed.size useful flipnum))
      (flipTurnTrials seed useful len flipnum flipstep (k * flipstep.toNat)) := by
    intro k hk c
    have hcur := toNat_flipCur hkind hk
    rw [lt_flipTurns_iff hkind] at hk
    rw [← hcur] at hk ⊢
    rw [UInt64.ofNat_toNat]
    exact bitFlipTurn_logs hkind hlen huseful hk c
  rw [bitFlip_eq pointedToken qCksum len hkind, bitFlipTrials]
  exact (logs_forRange (fun _ _ => Holds seed.bytes (Marks seed.size useful flipnum)) _
    hturn _).after fun _ => logs_pure fun s hs => hs

theorem mem_bitFlipTrials (hkind : (flipnum, flipstep) ∈ bitFlipKinds) {len : UInt64} {t : Trial} :
    t ∈ bitFlipTrials seed useful len flipnum flipstep ↔ ∃ k,
      k * flipstep.toNat + flipnum.toNat ≤ bitLen len ∧
      skipsAt useful flipnum flipstep (k * flipstep.toNat) = false ∧
      t = flipTrial seed len flipnum.toNat (k * flipstep.toNat) := by
  rw [bitFlipTrials, List.mem_flatMap]
  refine exists_congr fun k => ?_
  rw [List.mem_range, lt_flipTurns_iff hkind]
  refine and_congr_right fun _ => ?_
  rw [flipTurnTrials]
  -- a turn executes one case or none
  cases skipsAt useful flipnum flipstep (k * flipstep.toNat) with
  | true => simp
  | false => simp

end Turns

end DistFuzz.Fuzzer
