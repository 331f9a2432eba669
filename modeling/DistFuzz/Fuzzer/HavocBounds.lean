import DistFuzz.Fuzzer.Havoc

/-!
# `Havoc` never leaves its buffer (FuzzOne.cpp:793–1128)

Within a round the buffer is reallocated by every insertion, while deletions
shorten `temp_len` and keep the block, so what is allocated depends on the whole
history of the round. What carries the proof is that `temp_len` never exceeds the
block held and never becomes zero.

- `InBounds`: what holds of the buffer at every moment.
- `inBounds_mutate`: one mutation touches only the buffer and keeps the bounds,
  from one lemma for each operator.
- `inBounds_restore`: putting the seed back fits the buffer held then.
- `eventOk_havocLoop`: the rounds of a run, from any of them on.
- `havoc_in_bounds`, and what a seed of `2^32` bytes comes to.
-/

namespace DistFuzz.Fuzzer

open DistFuzz.Lib

/-! ## The operators stay in bounds -/

/-- The buffer is not empty, the length fits what is allocated, and it is below
`MAX_FILE_LEN` unless the seed already was not. -/
structure InBounds (len : UInt64) (m : HavocBuf) : Prop where
  pos : 1 ≤ m.tempLen.toNat
  le_size : m.tempLen.toNat ≤ m.filemap.size
  le_max : m.tempLen.toNat ≤ max len.toNat (maxFileLen.toNat - 1)

section Operators

variable {len : UInt64} {m : HavocBuf}

theorem InBounds.lt (h : InBounds len m) : m.tempLen.toNat < 2 ^ 63 :=
  h.le_size.trans_lt m.filemap.length_lt

/-- Changing the content keeps the bounds. -/
theorem inBounds_change (h : InBounds len m) {f : Block → Option Block}
    (hf : ∃ b, f m.filemap = some b ∧ b.size = m.filemap.size) :
    Ensures (m.change f) (InBounds len) :=
  (ensures_check hf).bind fun b hb =>
    ensures_pure { pos := h.pos, le_size := by rw [hb]; exact h.le_size, le_max := h.le_max }

theorem fillByte_spec (h : InBounds len m) : Ensures (fillByte m) fun _ => True := by
  have hpos := h.pos
  have hsize : m.tempLen.toNat ≤ m.filemap.bytes.length := h.le_size
  refine (randNum_le _).bind fun r _ => ?_
  split
  · exact (randNum_le _).bind fun r _ => ensures_pure trivial
  · exact (randNum_length_le _).bind fun r hr => ensures_getElem (by omega)

theorem inBounds_flipBit (h : InBounds len m) : Ensures (flipBit m) (InBounds len) := by
  refine (randNum_length_le _).bind fun bit hbit => ?_
  refine inBounds_change h (Block.exists_modifyWord _ ?_)
  have hpos := h.pos
  have hsize := h.le_size
  -- the number of bits may wrap, which only makes it smaller
  have hbits : (m.tempLen <<< 3).toNat ≤ m.tempLen.toNat * 8 := by
    rw [UInt64.toNat_shiftLeft, Nat.shiftLeft_eq]
    exact Nat.mod_le _ _
  have hbyte : (bit >>> 3).toNat = bit.toNat / 8 := by
    rw [UInt32.toNat_shiftRight, Nat.shiftRight_eq_div_pow]
    rfl
  omega

theorem inBounds_setByte (h : InBounds len m) : Ensures (setByte m) (InBounds len) := by
  have hpos := h.pos
  have hsize := h.le_size
  refine (randNum_length_le _).bind fun pos hp => ?_
  refine (randNum_index (by decide)).bind fun r hr => (ensures_getElem hr).bind fun x _ => ?_
  exact inBounds_change h (Block.exists_storeWord _ (by omega))

theorem inBounds_changeByte (h : InBounds len m) (denominator : UInt32)
    (op : BitVec 8 → BitVec 8 → BitVec 8) :
    Ensures (changeByte denominator op m) (InBounds len) := by
  have hpos := h.pos
  have hsize := h.le_size
  refine (randNum_length_le _).bind fun pos hp => (randNum_le _).bind fun num _ => ?_
  exact inBounds_change h (Block.exists_modifyWord _ (by omega))

/-- A position for a word. -/
theorem randNum_word_le {w : Nat} (hw : 0 < w) (hw' : w < 2 ^ 64) {a : UInt64}
    (ha : ¬a < UInt64.ofNat w) :
    Ensures (randNum (a - UInt64.ofNat (w - 1)).toUInt32) fun r => r.toNat + w ≤ a.toNat := by
  have hwn : (UInt64.ofNat w).toNat = w := UInt64.toNat_ofNat_of_lt hw'
  have hwn' : (UInt64.ofNat (w - 1)).toNat = w - 1 :=
    UInt64.toNat_ofNat_of_lt ((Nat.sub_le w 1).trans_lt hw')
  have hle : w ≤ a.toNat := by
    rwa [UInt64.not_lt, UInt64.le_iff_toNat_le, hwn] at ha
  have hsub : (a - UInt64.ofNat (w - 1)).toNat = a.toNat - (w - 1) := by
    rw [UInt64.toNat_sub_of_le _ _ (UInt64.le_iff_toNat_le.mpr (by omega)), hwn']
  exact (randNum_length_le _).mono fun r hr => by omega

theorem inBounds_setWord (h : InBounds len m) (w : Nat) (values : List (BitVec (8 * w)))
    (swap : BitVec (8 * w) → BitVec (8 * w)) (hw : 0 < w) (hw' : w < 2 ^ 64)
    (hvalues : 0 < values.length) :
    Ensures (setWord w values swap m) (InBounds len) := by
  have hsize := h.le_size
  rw [setWord]
  split
  · exact ensures_pure h
  · next hlen =>
    refine (randNum_le _).bind fun plain _ => (randNum_word_le hw hw' hlen).bind fun pos hp => ?_
    refine (randNum_index hvalues).bind fun r hr => (ensures_getElem hr).bind fun x _ => ?_
    exact inBounds_change h (Block.exists_storeWord _ (by omega))

theorem inBounds_changeWord (h : InBounds len m) (w : Nat)
    (swap : BitVec (8 * w) → BitVec (8 * w))
    (op : BitVec (8 * w) → BitVec (8 * w) → BitVec (8 * w)) (hw : 0 < w) (hw' : w < 2 ^ 64) :
    Ensures (changeWord w swap op m) (InBounds len) := by
  have hsize := h.le_size
  rw [changeWord]
  split
  · exact ensures_pure h
  · next hlen =>
    refine (randNum_le _).bind fun plain _ => (randNum_word_le hw hw' hlen).bind fun pos hp => ?_
    refine (randNum_le _).bind fun num _ => ?_
    exact inBounds_change h (Block.exists_modifyWord _ (by omega))

/-- A block that leaves a byte of the buffer. -/
theorem chooseBlockLen_inside (queueCycle : UInt64) (hlen : ¬m.tempLen < 2) :
    Ensures (chooseBlockLen queueCycle (m.tempLen - 1).toUInt32) fun n =>
      n.toNat + 1 ≤ m.tempLen.toNat := by
  have hle : 2 ≤ m.tempLen.toNat := UInt64.le_iff_toNat_le.mp (UInt64.not_lt.mp hlen)
  have hsub : (m.tempLen - 1).toNat = m.tempLen.toNat - 1 :=
    UInt64.toNat_sub_of_le _ _ (UInt64.le_iff_toNat_le.mpr (by rw [UInt64.toNat_one]; omega))
  exact (chooseBlockLen_length queueCycle (by omega)).mono fun n hn => by omega

theorem inBounds_deleteBlock (h : InBounds len m) (env : HavocEnv) :
    Ensures (deleteBlock env m) (InBounds len) := by
  have hsize := h.le_size
  have hmax := h.le_max
  rw [deleteBlock]
  split
  · exact ensures_pure h
  · next hlen =>
    -- the block leaves at least one byte, and starts early enough to end in the buffer
    refine (chooseBlockLen_inside _ hlen).bind fun delLen hdel => ?_
    refine (randNum_position_le (by omega) h.lt).bind fun delFrom hfrom => ?_
    have hrest : (m.tempLen - delLen.toUInt64).toNat = m.tempLen.toNat - delLen.toNat :=
      toNat_sub_length (by omega)
    have hmoved : (m.tempLen - delFrom.toUInt64 - delLen.toUInt64).toNat
        = m.tempLen.toNat - delFrom.toNat - delLen.toNat := by
      have hhead := toNat_sub_length (a := m.tempLen) (n := delFrom) (by omega)
      rw [toNat_sub_length (by omega), hhead]
    refine (ensures_check (Block.exists_memcpy (by omega) (by omega))).bind fun b hb => ?_
    refine ensures_pure { pos := ?_, le_size := ?_, le_max := ?_ }
    · show 1 ≤ (m.tempLen - delLen.toUInt64).toNat
      omega
    · show (m.tempLen - delLen.toUInt64).toNat ≤ b.size
      omega
    · show (m.tempLen - delLen.toUInt64).toNat ≤ _
      omega

/-- Inserting `n` bytes keeps the bounds if the sum stays below `MAX_FILE_LEN`
and whatever fills the gap stays in the new buffer. -/
theorem inBounds_splice (h : InBounds len m) {pos n : UInt32} {insert : Block → Option Block}
    (hpos : pos.toNat ≤ m.tempLen.toNat) (hsum : m.tempLen.toNat + n.toNat < maxFileLen.toNat)
    (hinsert : ∀ b : Block, b.size = m.tempLen.toNat + n.toNat →
      ∃ b', insert b = some b' ∧ b'.size = b.size) :
    ∃ m', m.splice pos n insert = some m' ∧ InBounds len m' := by
  have hsize := h.le_size
  have hadd := toNat_add_length h.lt n
  have htail := toNat_sub_length hpos
  have hlimit : m.tempLen.toNat + n.toNat < 2 ^ 63 := hsum.trans (by decide)
  -- the new buffer, its head, the part put in, its tail
  obtain ⟨b₀, hnew, hsize₀⟩ := Block.exists_new hlimit
  obtain ⟨b₁, hhead, hsize₁⟩ : ∃ b, b₀.memcpy 0 m.filemap 0 pos.toNat = some b ∧
      b.size = b₀.size := Block.exists_memcpy (by omega) (by omega)
  obtain ⟨b₂, hmiddle, hsize₂⟩ := hinsert b₁ (by omega)
  obtain ⟨b₃, htail', hsize₃⟩ : ∃ b, b₂.memcpy (pos.toNat + n.toNat) m.filemap pos.toNat
      (m.tempLen.toNat - pos.toNat) = some b ∧ b.size = b₂.size :=
    Block.exists_memcpy (by omega) (by omega)
  refine ⟨⟨b₃, m.tempLen + n.toUInt64⟩, ?_, ?_⟩
  · simp only [HavocBuf.splice, hadd, htail, hnew, hhead, hmiddle, htail', Option.bind_eq_bind,
      Option.bind_some, Option.pure_def]
  · have hpos' := h.pos
    refine { pos := ?_, le_size := ?_, le_max := ?_ }
    · show 1 ≤ (m.tempLen + n.toUInt64).toNat
      omega
    · show (m.tempLen + n.toUInt64).toNat ≤ b₃.size
      omega
    · show (m.tempLen + n.toUInt64).toNat ≤ _
      omega

theorem inBounds_cloneBlock (h : InBounds len m) (env : HavocEnv) :
    Ensures (cloneBlock env m) (InBounds len) := by
  have hpos := h.pos
  have hsize := h.le_size
  rw [cloneBlock]
  split
  · next hroom =>
    -- the guard leaves room for the largest block that can be drawn
    have hroom' : m.tempLen.toNat + havocBlkXl.toNat < maxFileLen.toNat := by
      rwa [UInt64.lt_iff_toNat_lt, toNat_add_length h.lt] at hroom
    refine (randNum_le _).bind fun actuallyClone _ => ?_
    split
    · refine (chooseBlockLen_length _ hpos).bind fun cloneLen hclone => ?_
      refine (randNum_position_le hclone.2.1 h.lt).bind fun cloneFrom hfrom => ?_
      refine (randNum_length_le _).bind fun cloneTo hto => ensures_check ?_
      refine inBounds_splice h (by omega) (by omega) fun b hb => ?_
      exact Block.exists_memcpy (by omega) (by omega)
    · refine (chooseBlockLen_spec _ _).bind fun cloneLen hclone => ?_
      refine (randNum_length_le _).bind fun cloneTo hto => ?_
      refine (fillByte_spec h).bind fun fill _ => ensures_check ?_
      refine inBounds_splice h (by omega) (by omega) fun b hb => ?_
      exact Block.exists_memset fill (by omega)
  · exact ensures_pure h

theorem inBounds_overwriteBlock (h : InBounds len m) (env : HavocEnv) :
    Ensures (overwriteBlock env m) (InBounds len) := by
  have hsize := h.le_size
  rw [overwriteBlock]
  split
  · exact ensures_pure h
  · next hlen =>
    refine (chooseBlockLen_inside _ hlen).bind fun copyLen hcopy => ?_
    refine (randNum_position_le (by omega) h.lt).bind fun copyFrom hfrom => ?_
    refine (randNum_position_le (by omega) h.lt).bind fun copyTo hto => ?_
    refine (randNum_le _).bind fun r _ => ?_
    split
    · split
      · exact inBounds_change h (Block.exists_memcpy (by omega) (by omega))
      · exact ensures_pure h
    · refine (fillByte_spec h).bind fun fill _ => ?_
      exact inBounds_change h (Block.exists_memset fill (by omega))

theorem inBounds_overwriteExtra (h : InBounds len m) {env : HavocEnv}
    (henv : env.pointedToken.length + env.autoToken.length ≠ 0) :
    Ensures (overwriteExtra env m) (InBounds len) := by
  have hsize := h.le_size
  refine (chooseExtra_spec henv).bind fun extra _ => ?_
  have hextra := toNat_size_le extra.size
  dsimp only
  split
  · exact ensures_pure h
  · next hfit =>
    have hfit' : (UInt32.ofNat extra.size).toNat ≤ m.tempLen.toNat := by
      rwa [gt_iff_lt, UInt64.not_lt, UInt64.le_iff_toNat_le, UInt32.toNat_toUInt64] at hfit
    refine (randNum_position_le hfit' h.lt).bind fun insertAt hat => ?_
    exact inBounds_change h (Block.exists_memcpy (by omega) (by omega))

theorem inBounds_insertExtra (h : InBounds len m) {env : HavocEnv}
    (henv : env.pointedToken.length + env.autoToken.length ≠ 0) :
    Ensures (insertExtra env m) (InBounds len) := by
  have hsize := h.le_size
  have hlt := h.lt
  have hsucc := toNat_succ_length hlt
  refine (randNum_length_le _).bind fun insertAt hat => ?_
  refine (chooseExtra_spec henv).bind fun extra _ => ?_
  have hextra := toNat_size_le extra.size
  dsimp only
  split
  · exact ensures_pure h
  · next hroom =>
    have hroom' : m.tempLen.toNat + (UInt32.ofNat extra.size).toNat < maxFileLen.toNat := by
      rwa [ge_iff_le, UInt64.not_le, UInt64.lt_iff_toNat_lt, toNat_add_length hlt] at hroom
    refine ensures_check (inBounds_splice h (by omega) hroom' fun b hb => ?_)
    exact Block.exists_memcpy (by omega) (by omega)

/-- **One mutation**, whichever it is, touches only the buffer it holds and keeps
the bounds. -/
theorem inBounds_mutate (env : HavocEnv) (h : InBounds len m) :
    Ensures (mutate env m) (InBounds len) := by
  refine (randNum_le _).bind fun op hop => ?_
  -- the last two operators are drawn only if there is a token
  have htokens : 15 ≤ op.toNat → env.pointedToken.length + env.autoToken.length ≠ 0 := by
    intro hle hnone
    rw [if_neg (not_not.mpr hnone)] at hop
    have h15 : (15 : UInt32).toNat = 15 := rfl
    omega
  split
  · exact inBounds_flipBit h
  · exact inBounds_setByte h
  · exact inBounds_setWord h 2 interesting16 swap16 (by decide) (by decide) (by decide)
  · exact inBounds_setWord h 4 interesting32 swap32 (by decide) (by decide) (by decide)
  · exact inBounds_changeByte h _ _
  · exact inBounds_changeByte h _ _
  · exact inBounds_changeWord h 2 swap16 _ (by decide) (by decide)
  · exact inBounds_changeWord h 2 swap16 _ (by decide) (by decide)
  · exact inBounds_changeWord h 4 swap32 _ (by decide) (by decide)
  · exact inBounds_changeWord h 4 swap32 _ (by decide) (by decide)
  · exact inBounds_changeByte h _ _
  · exact inBounds_deleteBlock h env
  · exact inBounds_deleteBlock h env
  · exact inBounds_cloneBlock h env
  · exact inBounds_overwriteBlock h env
  · next heq => exact inBounds_overwriteExtra h (htokens (by omega))
  · next heq => exact inBounds_insertExtra h (htokens (by omega))
  · exact ensures_pure h

/-- Putting the seed back fits the buffer held then: it is a new one, or one at
least as long as the case just executed, which was not shorter than the seed. -/
theorem inBounds_restore (h : InBounds len m) {origBuf : Block} (hlen : 1 ≤ len.toNat)
    (horig : origBuf.size = len.toNat) :
    ∃ m', restore origBuf len m = some m' ∧ InBounds len m' ∧ m'.tempLen = len ∧
      m'.filemap.bytes.take len.toNat = origBuf.bytes := by
  have hsize := h.le_size
  obtain ⟨b, hb, hroom⟩ : ∃ b, roundBuffer len m = some b ∧ len.toNat ≤ b.size := by
    rw [roundBuffer]
    split
    · obtain ⟨b, hnew, hb⟩ := Block.exists_new (n := len.toNat) (by
        rw [← horig]
        exact origBuf.length_lt)
      exact ⟨b, hnew, hb.ge⟩
    · next hlong =>
      -- `len <= temp_len`, and `temp_len` fits the block whatever its history
      rw [UInt64.not_lt, UInt64.le_iff_toNat_le] at hlong
      exact ⟨m.filemap, rfl, hlong.trans hsize⟩
  obtain ⟨b', hcopy, hb'⟩ : ∃ b', b.memcpy 0 origBuf 0 len.toNat = some b' ∧ b'.size = b.size :=
    Block.exists_memcpy (by omega) (by omega)
  refine ⟨⟨b', len⟩, ?_, ⟨hlen, ?_, le_max_left _ _⟩, rfl, ?_⟩
  · simp only [restore, hb, hcopy, Option.bind_eq_bind, Option.bind_some, Option.pure_def]
  · show len.toNat ≤ b'.size
    rwa [hb']
  · rw [Block.take_memcpy hcopy]
    exact List.take_of_length_le horig.le

end Operators

/-! ## Whole runs -/

/-- What holds at every event: the buffer is in bounds, an executed case is what
`WriteToTestcase` takes from the buffer (for seeds below 4 GiB all it holds, which is not
empty), and a restored buffer holds the seed. -/
def EventOk (len : UInt64) (seed : List UInt8) (e : HavocEvent) : Prop :=
  InBounds len e.buf ∧
    match e with
    | .mutated _ => True
    | .executed m case => case = caseOf m.tempLen m.filemap.bytes ∧
      (len.toNat < 2 ^ 32 → case = m.filemap.bytes.take m.tempLen.toNat ∧ case ≠ [])
    | .restored m => m.tempLen = len ∧ m.filemap.bytes.take len.toNat = seed

theorem eventOk_executed {len : UInt64} {m : HavocBuf} (hm : InBounds len m)
    (seed : List UInt8) :
    ∃ case, m.filemap.read 0 m.tempLen.toUInt32.toNat = some case ∧
      EventOk len seed (.executed m case) := by
  refine ⟨_, read_case hm.le_size, hm, rfl, fun hsmall => ?_⟩
  -- no operator gets a buffer above 4 GiB that was not there before
  have hlimit : maxFileLen.toNat = 1048576 := rfl
  have hcut : m.tempLen.toUInt32.toNat = m.tempLen.toNat := by
    have hmax := hm.le_max
    rw [UInt64.toNat_toUInt32]
    exact Nat.mod_eq_of_lt (by omega)
  rw [caseOf, hcut]
  refine ⟨rfl, fun hnil => ?_⟩
  have hlen : (m.filemap.bytes.take m.tempLen.toNat).length = m.tempLen.toNat :=
    List.length_take_of_le hm.le_size
  rw [hnil, List.length_nil] at hlen
  exact absurd hm.pos (by omega)

/-- From any round on, whatever the random numbers and the outcomes of the
executions: no access leaves the buffer, and every event is as it should be. -/
theorem eventOk_havocLoop (env : HavocEnv) {origBuf : Block} {len : UInt64}
    (hlen : 1 ≤ len.toNat) (horig : origBuf.size = len.toNat) (units : Nat → UnitResult)
    (i havocTime : Nat) (queueInitSize : UInt32) {m : HavocBuf} (hm : InBounds len m) :
    Ensures (havocLoop env origBuf len units i havocTime queueInitSize m) fun r =>
      ∀ e ∈ r.2, EventOk len origBuf.bytes e := by
  -- on the number of rounds that are left at most; a round may double `havoc_time`
  induction hleft : max havocTime 256 - i using Nat.strong_induction_on
    generalizing i havocTime queueInitSize m with
  | _ left ih =>
    rw [havocLoop]
    split
    · next hi =>
      refine (randNum_le _).bind fun r _ => ?_
      refine (ensures_iterate (InBounds len) (fun m hm => inBounds_mutate env hm) _ hm).bind ?_
      rintro ⟨m₁, passed⟩ ⟨hm₁, hpassed⟩
      refine (ensures_check (eventOk_executed hm₁ origBuf.bytes)).bind fun case hcase => ?_
      have hround : ∀ e ∈ passed.map HavocEvent.mutated ++ [.executed m₁ case],
          EventOk len origBuf.bytes e := by
        intro e he
        rcases List.mem_append.mp he with he | he
        · obtain ⟨m', hm', rfl⟩ := List.mem_map.mp he
          exact ⟨hpassed m' hm', trivial⟩
        · rwa [List.mem_singleton.mp he]
      dsimp only
      split
      · exact ensures_pure hround
      · refine (ensures_check (inBounds_restore hm₁ hlen horig)).bind fun m₂ hm₂ => ?_
        have hle := nextHavocTime_le havocTime queueInitSize (units i).queueSize
        refine (ih _ (by omega) (i + 1) _ _ hm₂.1 rfl).bind ?_
        rintro ⟨ret, later⟩ hlater
        refine ensures_pure fun e he => ?_
        rcases List.mem_append.mp he with he | he
        · exact hround e he
        · rcases List.mem_cons.mp he with rfl | he
          · exact hm₂
          · exact hlater e he
    · exact ensures_pure fun e he => (nomatch he)

/-- The same for the whole call. -/
theorem eventOk_havoc (env : HavocEnv) (len : UInt64) (buf : Block) (hlen : 1 ≤ len.toNat)
    (hbuf : len.toNat ≤ buf.size) (cycles queueInitSize : UInt32) (units : Nat → UnitResult) :
    Ensures (havoc env len buf cycles queueInitSize units) fun r =>
      ∀ e ∈ r.2, EventOk len (buf.bytes.take len.toNat) e := by
  refine (ensures_check (Block.exists_new (hbuf.trans_lt buf.length_lt))).bind fun b₀ hb₀ => ?_
  obtain ⟨origBuf, hcopy, hsize⟩ :
      ∃ b, b₀.memcpy 0 buf 0 len.toNat = some b ∧ b.size = b₀.size :=
    Block.exists_memcpy (by omega) (by omega)
  have horig : origBuf.size = len.toNat := hsize.trans hb₀
  have hseed : origBuf.bytes = buf.bytes.take len.toNat := by
    rw [← Block.take_memcpy hcopy, List.take_of_length_le horig.le]
  refine (ensures_check ⟨origBuf, hcopy, rfl⟩).bind ?_
  rintro _ rfl
  rw [← hseed]
  exact eventOk_havocLoop env hlen horig units 0 _ _ ⟨hlen, hbuf, le_max_left _ _⟩

/-- **`Havoc` never leaves its buffer.** For every seed of at least one byte, all
dictionaries, queue cycles, random numbers and outcomes of the executions, it
returns without an access outside the block it holds. At every moment the length
is between one and what is allocated, and below `MAX_FILE_LEN` unless the seed
was not; every executed case is what the buffer holds, up to the cut of its length to 32
bits, and for seeds below 4 GiB all of it, which is not empty; and the seed is back in the
buffer after each round. -/
theorem havoc_in_bounds (env : HavocEnv) (len : UInt64) (buf : Block) (hlen : 1 ≤ len.toNat)
    (hbuf : len.toNat ≤ buf.size) (cycles queueInitSize : UInt32) (units : Nat → UnitResult)
    (rand : Stream' UInt32) :
    ∃ ret events rest,
      havoc env len buf cycles queueInitSize units rand = some ((ret, events), rest) ∧
      ∀ e ∈ events,
        1 ≤ e.buf.tempLen.toNat ∧ e.buf.tempLen.toNat ≤ e.buf.filemap.size ∧
        e.buf.tempLen.toNat ≤ max len.toNat (maxFileLen.toNat - 1) ∧
        match e with
        | .mutated _ => True
        | .executed m case => case = caseOf m.tempLen m.filemap.bytes ∧
          (len.toNat < 2 ^ 32 → case = m.filemap.bytes.take m.tempLen.toNat ∧ case ≠ [])
        | .restored m =>
          m.tempLen = len ∧ m.filemap.bytes.take len.toNat = buf.bytes.take len.toNat := by
  obtain ⟨⟨ret, events⟩, rest, hrun, hevents⟩ :=
    eventOk_havoc env len buf hlen hbuf cycles queueInitSize units rand
  refine ⟨ret, events, rest, hrun, fun e he => ?_⟩
  obtain ⟨hbounds, hkind⟩ := hevents e he
  exact ⟨hbounds.pos, hbounds.le_size, hbounds.le_max, hkind⟩

/-- A seed of one byte and a dictionary of one token, with all draws zero. -/
theorem havoc_in_bounds_oneByte :
    ∃ ret events rest,
      havoc ⟨[], [⟨[66, 67], by decide⟩], 1⟩ 1 ⟨[65], by decide⟩ havocCyclesInit 1
        (fun _ => ⟨false, 1⟩) (Stream'.const 0) = some ((ret, events), rest) ∧
      ∀ m case, .executed m case ∈ events → case = m.filemap.bytes.take m.tempLen.toNat ∧
        case ≠ [] := by
  obtain ⟨ret, events, rest, hrun, hevents⟩ :=
    havoc_in_bounds ⟨[], [⟨[66, 67], by decide⟩], 1⟩ 1 ⟨[65], by decide⟩ (by decide) (by decide)
      havocCyclesInit 1 (fun _ => ⟨false, 1⟩) (Stream'.const 0)
  refine ⟨ret, events, rest, hrun, fun m case he => ?_⟩
  exact (hevents (.executed m case) he).2.2.2.2 (by decide)

/-! ## Seeds of 4 GiB -/

/-- With all draws zero a mutation flips a bit, which leaves the length as it is. -/
theorem mutate_zeros (env : HavocEnv) {len : UInt64} {m : HavocBuf} (h : InBounds len m) :
    ∃ m', mutate env m (Stream'.const 0) = some (m', Stream'.const 0) ∧ m'.tempLen = m.tempLen ∧
      InBounds len m' := by
  have hfirst : 0 + 1 ≤ m.filemap.size := h.pos.trans h.le_size
  obtain ⟨b, hb, hsize⟩ := Block.exists_modifyWord
    (fun x => x ^^^ 128#8 >>> ((0 : UInt32) &&& 7).toNat) hfirst
  refine ⟨⟨b, m.tempLen⟩, ?_, rfl, h.pos, by rw [hsize]; exact h.le_size, h.le_max⟩
  rw [mutate, bind_of_run (randNum_zeros _)]
  show flipBit m (Stream'.const 0) = _
  rw [flipBit, bind_of_run (randNum_zeros _), HavocBuf.change]
  exact congrFun (check_bind hb _) _

/-- So does a whole round of them. -/
theorem iterate_mutate_zeros (env : HavocEnv) (n : Nat) {len : UInt64} {m : HavocBuf}
    (h : InBounds len m) :
    ∃ m' passed, iterate (mutate env) n m (Stream'.const 0)
      = some ((m', passed), Stream'.const 0) ∧ m'.tempLen = m.tempLen ∧ InBounds len m' := by
  induction n generalizing m with
  | zero => exact ⟨m, [], rfl, rfl, h⟩
  | succ n ih =>
    obtain ⟨m₁, hrun, hlen, hin⟩ := mutate_zeros env h
    obtain ⟨m₂, passed, hrun₂, hlen₂, hin₂⟩ := ih hin
    refine ⟨m₂, m₁ :: passed, ?_, hlen₂.trans hlen, hin₂⟩
    rw [iterate, bind_of_run hrun, bind_of_run hrun₂]
    rfl

/-- Of a seed of 4294967296 bytes, that is `2 ^ 32`, `Havoc` executes the empty case. -/
theorem havoc_executes_empty :
    ∃ m events rest,
      havoc ⟨[], [], 1⟩ 4294967296 hugeSeed havocCyclesInit 1 (fun _ => ⟨true, 1⟩)
        (Stream'.const 0) = some ((1, events), rest) ∧
      .executed m [] ∈ events ∧ m.tempLen = 4294967296 := by
  have hsize : (4294967296 : UInt64).toNat = hugeSeed.size := size_hugeSeed.symm
  -- the copy of the seed
  obtain ⟨b₀, hnew, hb₀⟩ := Block.exists_new (n := (4294967296 : UInt64).toNat) (by decide)
  obtain ⟨origBuf, hcopy, -⟩ :
      ∃ b, b₀.memcpy 0 hugeSeed 0 (4294967296 : UInt64).toNat = some b ∧ b.size = b₀.size :=
    Block.exists_memcpy (by omega) (by omega)
  have hin : InBounds 4294967296 ⟨hugeSeed, 4294967296⟩ :=
    ⟨(by decide : 1 ≤ (4294967296 : UInt64).toNat), hsize.le, le_max_left _ _⟩
  -- the one round, which ends the call
  obtain ⟨m, passed, hrun, hlen, -⟩ :=
    iterate_mutate_zeros ⟨[], [], 1⟩ ((1 : UInt32) <<< (1 + 0)).toNat hin
  have hcase : m.filemap.read 0 m.tempLen.toUInt32.toNat = some [] := by
    rw [hlen]
    exact Block.read_front (Nat.zero_le _)
  refine ⟨m, passed.map .mutated ++ [.executed m []], Stream'.const 0, ?_,
    List.mem_append_right _ (List.mem_singleton_self _), hlen⟩
  rw [havoc, check_bind hnew, check_bind hcopy, havocLoop, if_pos (by decide),
    bind_of_run (randNum_zeros _), bind_of_run hrun]
  dsimp only
  rw [check_bind hcase]
  rfl

end DistFuzz.Fuzzer
