import DistFuzz.Fuzzer.Dictionary

/-!
# One token at a time (FuzzOne.cpp:646–756)

Every case of `DictionaryReplace` is the seed with one selected token over it, and every
case of `DictionaryInsert` the seed with one selected token in it. Two conversions stand
in the way for seeds of 2 GiB and more: the `int` in the length of the copies, and the
`u32` length of a test case.

- `replaceTurn_faults`: a position at which the `int` is negative.
- `truncated_case`: a seed of at least `2^32` bytes of which only the low 32 bits of the
  length are executed.
- `dictionary_one_token_iff`: for which seeds every case has one token.
-/

namespace DistFuzz.Fuzzer

open DistFuzz.Lib

section Large

variable {target : Target} {seed : Block} {useful : List Bool} {len : UInt64} {i : Nat}

/-- **A negative length**: nothing is executed and the copy leaves the buffer. -/
theorem replaceTurn_faults {tokens : List Entry} {orig : Block}
    (hneg : 2 ^ 31 ≤ (len - UInt64.ofNat i).toNat % 2 ^ 32) (s₀ : StageState) :
    Triple (fun s => s = s₀) (replaceTurn target len tokens i orig) (fun _ _ => False)
      fun e s => e = .fault ∧ s = s₀ := by
  have hbig : 2 ^ 63 ≤ copyLen (len - UInt64.ofNat i) := copyLen_of_negative hneg
  have hread : Triple (fun s => s = s₀)
      (access Halt.fault fun s => orig.memcpy 0 s.filemap i (copyLen (len - UInt64.ofNat i)))
      (fun _ _ => False) fun e s => e = .fault ∧ s = s₀ := by
    refine triple_access_or (fun s hs a ha => ?_) fun s hs _ => ⟨rfl, hs⟩
    have hlt : s.filemap.size < 2 ^ 63 := s.filemap.length_lt
    rw [Block.memcpy_eq_none (by omega)] at ha
    cases ha
  exact hread.bind fun _ => triple_false fun s hs => hs

/-- If the low half of the length is a negative `int`, no case is executed. -/
theorem no_cases_of_negative {tokens : List Entry} {orig : Block}
    (hneg : 2 ^ 31 ≤ seed.size % 2 ^ 32) :
    casesOf (dictionaryReplace target orig (seedLen seed) tokens) (.start seed useful) = [] := by
  have hpos : 0 < seed.size := by
    refine Nat.pos_of_ne_zero fun h => ?_
    rw [h] at hneg
    exact absurd hneg (by decide)
  -- a negative `int` is a huge length for `memcpy`, which faults in the first turn
  have hstop : ∀ orig, Triple (fun s => s = StageState.start seed useful)
      (replaceTurn target (seedLen seed) tokens 0 orig) (fun _ _ => False)
      fun e s => e = .fault ∧ s = .start seed useful :=
    fun orig => replaceTurn_faults (by rwa [toNat_rest (toNat_seedLen seed) hpos, Nat.sub_zero]) _
  have hloop := triple_forRange_stop (toNat_seedLen seed ▸ hpos)
    (fun _ _ s => s = StageState.start seed useful) (fun i hi => absurd hi (Nat.not_lt_zero i))
    hstop orig
  have hstage : Triple (fun s => s = StageState.start seed useful)
      (dictionaryReplace target orig (seedLen seed) tokens) (fun _ _ => False)
      fun e s => e = .fault ∧ s = .start seed useful :=
    hloop.bind fun _ => triple_false fun s hs => hs
  obtain ⟨e, s, hrun, -, rfl⟩ := hstage.fails rfl
  rw [casesOf, hrun]
  rfl

/-! ## Cases that are cut off -/

/-- A case that was tried remains one. -/
theorem fuzzUnit_preserves {t : Trial} (window : Window) (mem : StageState → Block) :
    Preserves (fun s => t ∈ s.trials) (Stage.fuzzUnit target window mem len) := by
  intro s hs
  show EndsIn _ _ (Stage.fuzzUnit target window mem len s)
  rw [Stage.fuzzUnit]
  cases (mem s).read 0 len.toUInt32.toNat with
  | none => exact hs
  | some case =>
    dsimp only
    split
    · exact List.mem_append_left _ hs
    · exact List.mem_append_left _ hs

theorem anyUseful_preserves {P : StageState → Prop} (i n : Nat) : Preserves P (anyUseful i n) := by
  induction n generalizing i with
  | zero => exact preserves_pure _
  | succ n ih => exact (preserves_access _ _).bind fun b => preserves_ite (preserves_pure _) (ih _)

theorem replaceToken_preserves {t : Trial} (i : Nat) (orig : Block) (token : Token) :
    Preserves (fun s => t ∈ s.trials) (replaceToken target len i orig token) := by
  refine preserves_ite (preserves_pure _) ((preserves_access _ _).bind fun same => ?_)
  refine preserves_ite (preserves_pure _) ((anyUseful_preserves _ _).bind fun b => ?_)
  refine preserves_ite ?_ (preserves_pure _)
  refine Preserves.bind (preserves_update fun s s' hs hs' => ?_) fun _ =>
    (fuzzUnit_preserves _ _).bind fun _ => preserves_pure _
  obtain ⟨b, -, rfl⟩ := Option.map_eq_some_iff.mp hs'
  exact hs

/-- The last part of a turn. -/
theorem restore_preserves {t : Trial} (n i : Nat) (orig : Block) :
    Preserves (fun s => t ∈ s.trials) (do
      update .fault fun s => (s.filemap.memcpy i orig 0 n).map fun b => { s with filemap := b }
      return orig : Stage Block) := by
  refine Preserves.bind (preserves_update fun s s' hs hs' => ?_) fun _ => preserves_pure _
  obtain ⟨b, -, rfl⟩ := Option.map_eq_some_iff.mp hs'
  exact hs

theorem replaceTurn_preserves {t : Trial} (tokens : List Entry) (i : Nat) (orig : Block) :
    Preserves (fun s => t ∈ s.trials) (replaceTurn target len tokens i orig) := by
  refine (preserves_access _ _).bind fun orig => ?_
  exact (preserves_forEach (fun e _ _ => replaceToken_preserves i orig e.1) ()).bind fun _ =>
    restore_preserves _ i orig

/-- There is a token of one byte that does not stand at the start of a block. -/
theorem exists_token_ne {b : Block} (hpos : 0 < b.size) :
    ∃ token : Token, token.bytes.length = 1 ∧ b.bytes.take 1 ≠ token.bytes := by
  have hone : minTokenSize ≤ 1 ∧ 1 ≤ maxTokenSize := by decide
  refine ⟨⟨[if b.bytes.getD 0 0 = 0 then 1 else 0], hone.1, hone.2⟩, rfl, fun h => ?_⟩
  rw [List.take_one, List.head?_eq_getElem?, List.getElem?_eq_getElem hpos,
    List.getD_eq_getElem _ _ hpos] at h
  have hbyte : b.bytes[0] = if b.bytes[0] = 0 then 1 else 0 := List.singleton_inj.mp h
  split at hbyte
  · next h0 =>
    rw [h0] at hbyte
    exact absurd hbyte (by decide)
  · next h0 => exact h0 hbyte

/-- Before turn `i`: the stage is about to begin, or the first turn has tried `t`. -/
def FirstTried (seed : Block) (useful : List Bool) (orig : Block) (t : Trial) :
    Nat → Block → StageState → Prop
  | 0, b, s => b = orig ∧ s = .start seed useful
  | _ + 1, _, s => t ∈ s.trials

/-- What is tried at position 0 is in the log at the end, whatever comes after it. -/
theorem mem_trials_of_first {e : Entry} {orig saved : Block} {t : Trial}
    (hpos : 0 < seed.size)
    (hsaved : orig.memcpy 0 seed 0 (copyLen (seedLen seed - UInt64.ofNat 0)) = some saved)
    (htry : Triple (fun s => s = StageState.start seed useful)
      (replaceToken target (seedLen seed) 0 saved e.1) (fun _ s => t ∈ s.trials)
      fun _ s => t ∈ s.trials) :
    t ∈ ((dictionaryReplace target orig (seedLen seed) [e]).exec
      (.start seed useful)).2.trials := by
  have hsave : Triple (fun s => s = StageState.start seed useful)
      (access Halt.fault fun s =>
        orig.memcpy 0 s.filemap 0 (copyLen (seedLen seed - UInt64.ofNat 0)))
      (fun b s => b = saved ∧ s = .start seed useful) fun _ s => t ∈ s.trials := by
    refine triple_access ?_
    rintro s rfl
    exact ⟨saved, hsaved, rfl, rfl⟩
  -- the token is tried in the turn at position 0, and trials are never taken back
  have hfirst : Triple (fun s => s = StageState.start seed useful)
      (replaceTurn target (seedLen seed) [e] 0 orig) (fun _ s => t ∈ s.trials)
      fun _ s => t ∈ s.trials := by
    refine hsave.bind fun b s hs => ?_
    obtain ⟨rfl, rfl⟩ := hs
    exact ((htry.bind fun _ => preserves_pure _).bind fun _ => restore_preserves _ 0 b) _ rfl
  have hturn : ∀ i, i < (seedLen seed).toNat → ∀ b, Triple (FirstTried seed useful orig t i b)
      (replaceTurn target (seedLen seed) [e] i b) (FirstTried seed useful orig t (i + 1))
      fun _ s => t ∈ s.trials := by
    intro i _ b
    -- later turns may fail, but what is in the log stays
    cases i with
    | zero =>
      rintro s ⟨rfl, hs⟩
      exact hfirst s hs
    | succ i => exact replaceTurn_preserves [e] (i + 1) b
  have hloop := triple_forRange (FirstTried seed useful orig t) hturn orig
  have hstage : Triple (FirstTried seed useful orig t 0 orig)
      (dictionaryReplace target orig (seedLen seed) [e]) (fun _ s => t ∈ s.trials)
      fun _ s => t ∈ s.trials := by
    obtain ⟨n, hn⟩ := Nat.exists_eq_add_of_lt (toNat_seedLen seed ▸ hpos)
    rw [hn] at hloop
    rw [dictionaryReplace, hn]
    exact hloop.bind fun _ => preserves_pure _
  exact hstage.after ⟨rfl, rfl⟩

/-- **A seed that is too large**: at position 0 a case is executed, with no more of it than
the low 32 bits of the length say. -/
theorem truncated_case (hbig : 2 ^ 32 ≤ seed.size) (hlow : seed.size % 2 ^ 32 < 2 ^ 31)
    {orig : Block} (horig : orig.size = maxTokenSize) :
    ∃ e : Entry, ∃ case ∈ casesOf (dictionaryReplace (calm fun _ _ => 0) orig (seedLen seed) [e])
      (.start seed (allUseful seed)), case.length = seed.size % 2 ^ 32 := by
  have hlen := toNat_seedLen seed
  have hpos : 0 < seed.size := Nat.lt_of_lt_of_le (by decide) hbig
  have hrest : (seedLen seed - UInt64.ofNat 0).toNat = seed.size := toNat_rest hlen hpos
  -- what is saved of the seed is as long as the low half of its length allows
  have hn : copyLen (seedLen seed - UInt64.ofNat 0) = min maxTokenSize (seed.size % 2 ^ 32) := by
    rw [copyLen_eq (by rwa [hrest]), hrest]
  have hmod := Nat.mod_le seed.size (2 ^ 32)
  obtain ⟨saved, hsaved, hbytes⟩ := Block.memcpy_eq
    (show 0 + min maxTokenSize (seed.size % 2 ^ 32) ≤ orig.size by omega)
    (show 0 + min maxTokenSize (seed.size % 2 ^ 32) ≤ seed.size by omega)
  have hsize : saved.size = maxTokenSize := by
    rw [Block.size, hbytes, length_overwrite, ← horig]
    · rfl
    · rw [List.length_take, ← Block.size]
      omega
  -- a token of one byte that does not stand there already
  obtain ⟨token, hone, hne⟩ := exists_token_ne (show 0 < saved.size by rw [hsize]; decide)
  have happlies : appliesAt saved.bytes (seed.size - 0) (allUseful seed) 0 token = true := by
    rw [appliesAt, Bool.and_eq_true, Bool.and_eq_true, decide_eq_true_iff, decide_eq_true_iff, hone]
    exact ⟨⟨hpos, hne⟩, usefulIn_allUseful Nat.one_pos (Nat.succ_le_of_lt hpos)⟩
  have hstart : Overlaid seed (allUseful seed) 0 [] (.start seed (allUseful seed)) :=
    ⟨[], .inl rfl, Nat.zero_le _, (overwrite_nil _ _).symm, rfl⟩
  have htry : StageLogs (calm fun _ _ => 0) (Overlaid seed (allUseful seed) 0 [])
      (replaceToken (calm fun _ _ => 0) (seedLen seed) 0 saved token)
      (fun _ => Overlaid seed (allUseful seed) 0 ([] ++ [(token, 1)]))
      (if appliesAt saved.bytes (seed.size - 0) (allUseful seed) 0 token
        then [replaceTrial seed (seedLen seed) 0 token] else []) :=
    replaceToken_logs hlen (length_allUseful seed) hpos hsize fun e' he' => by cases he'
  rw [if_pos happlies] at htry
  refine ⟨(token, 1), _, List.mem_map.mpr ⟨_, mem_trials_of_first hpos (hn ▸ hsaved)
    (htry.triple_mem (not_unitFailed_calm _) hstart List.mem_cons_self), rfl⟩, ?_⟩
  rw [replaceTrial, caseOf, List.length_take, length_overwrite, UInt64.toNat_toUInt32, hlen]
  · exact Nat.min_eq_left hmod
  · rw [hone, ← Block.size]
    omega

end Large

/-! ## Every case has one token -/

/-- `std::sort` could be a stable sort. -/
def Sorter.stable : Sorter where
  sort lt l := l.mergeSort fun a b => !lt b a
  perm lt l := List.mergeSort_perm l _
  sorted lt l htrans htotal := by
    refine (List.pairwise_mergeSort (fun a b c h h' => ?_) (fun a b => ?_) l).imp fun h => ?_
    · rw [Bool.not_eq_true'] at h h' ⊢
      exact htrans a b c h h'
    · rw [Bool.or_eq_true, Bool.not_eq_true', Bool.not_eq_true']
      exact htotal a b
    · rwa [Bool.not_eq_true'] at h

/-- The seed with one of the tokens over it. -/
def OneReplaced (seed : Block) (kept : List Entry) (case : List UInt8) : Prop :=
  ∃ e ∈ kept, ∃ i, i + e.1.bytes.length ≤ seed.size ∧ case = overwrite seed.bytes i e.1.bytes

/-- The seed with one of the tokens in it. -/
def OneInserted (seed : Block) (kept : List Entry) (case : List UInt8) : Prop :=
  ∃ e ∈ kept, ∃ i, i ≤ seed.size ∧ case = inserted seed i e.1

section Cases

variable {target : Target} {seed orig : Block} {useful : List Bool} {kept : List Entry}

theorem oneReplaced_of_mem (hkept : ByLength kept) (horig : orig.size = maxTokenSize)
    (huseful : useful.length = seed.size) (hsmall : seed.size < 2 ^ 31) {case : List UInt8}
    (h : case ∈ casesOf (dictionaryReplace target orig (seedLen seed) kept)
      (.start seed useful)) : OneReplaced seed kept case := by
  have hlogs : StageLogs target (Intact seed useful)
      (dictionaryReplace target orig (seedLen seed) kept) (fun _ => Intact seed useful)
      ((List.range seed.size).flatMap (replaceTrials seed useful (seedLen seed) kept)) :=
    dictionaryReplace_logs hkept (toNat_seedLen seed) huseful hsmall horig
  -- a case in the log was tried at some position with some token
  obtain ⟨t, ht, rfl⟩ := List.mem_map.mp h
  have hmem := hlogs.mem (intact_start seed useful) ht
  obtain ⟨i, hi, hmem⟩ := List.mem_flatMap.mp hmem
  obtain ⟨e, he, hmem⟩ := List.mem_flatMap.mp hmem
  rw [List.mem_range] at hi
  rw [List.mem_ite_nil_right, List.mem_singleton, appliesAt, Bool.and_eq_true, Bool.and_eq_true,
    decide_eq_true_iff] at hmem
  obtain ⟨⟨⟨hfit, -⟩, -⟩, rfl⟩ := hmem
  have hfit' : i + e.1.bytes.length ≤ seed.size := by omega
  refine ⟨e, he, i, hfit', caseOf_eq ?_ (by rw [toNat_seedLen]; omega)⟩
  rw [length_overwrite hfit', toNat_seedLen]
  rfl

theorem oneInserted_of_mem {case : List UInt8}
    (h : case ∈ casesOf (dictionaryInsert target (seedLen seed) kept) (.start seed useful)) :
    OneInserted seed kept case := by
  obtain ⟨t, ht, rfl⟩ := List.mem_map.mp h
  by_cases hroom : seed.size + maxTokenSize < 2 ^ 63
  · have hlogs : StageLogs target (Intact seed useful)
        (dictionaryInsert target (seedLen seed) kept) (fun _ => Intact seed useful)
        ((List.range seed.size).flatMap (insertTurnTrials seed kept)) :=
      dictionaryInsert_logs (toNat_seedLen seed) hroom
    have hmem := hlogs.mem (intact_start seed useful) ht
    obtain ⟨i, hi, hmem⟩ := List.mem_flatMap.mp hmem
    obtain ⟨e, he, hmem⟩ := List.mem_flatMap.mp hmem
    rw [List.mem_range] at hi
    rw [insertTrials, List.mem_ite_nil_right, List.mem_singleton] at hmem
    obtain ⟨-, rfl⟩ := hmem
    exact ⟨e, he, i, Nat.le_of_lt hi, rfl⟩
  · -- there is no room for `temp`
    have halloc : Triple (fun s => s.trials = [])
        (dictionaryInsert target (seedLen seed) kept) (fun _ _ => False)
        fun _ s => s.trials = [] := by
      have hlt : seed.size < 2 ^ 63 := seed.length_lt
      have hnew : (seedLen seed + UInt64.ofNat maxTokenSize).toNat = seed.size + maxTokenSize := by
        rw [UInt64.toNat_add, toNat_seedLen]
        exact Nat.mod_eq_of_lt (by show seed.size + 32 < 2 ^ 64; omega)
      refine Triple.bind (triple_access_or (fun s hs a ha => ?_) fun s hs _ => hs) fun _ =>
        triple_false fun s hs => hs
      rw [hnew, Block.new, dif_neg hroom] at ha
      cases ha
    obtain ⟨e, s, hrun, hs⟩ := halloc.fails (s := .start seed useful) rfl
    rw [hrun, hs] at ht
    cases ht

theorem not_oneReplaced {case : List UInt8} (h : case.length ≠ seed.size) :
    ¬OneReplaced seed kept case := by
  rintro ⟨e, -, i, hfit, rfl⟩
  exact h (length_overwrite hfit)

end Cases

/-- A dictionary of one token. -/
def singleToken (e : Entry) : TokenMap := ⟨[e], List.nodup_singleton _⟩

theorem selectTokens_singleToken (std : Sorter) (e : Entry) :
    selectTokens std (singleToken e) = [e] :=
  List.perm_singleton.mp (std.perm compareMVectorStringLen [e])

/-- A local buffer of zeros. -/
def zeroBuffer : Block := ⟨List.replicate maxTokenSize 0, by decide⟩

/-- **One token at a time**: the selection is as it should be and every case that is
executed is the seed with one selected token, unless the seed has at least `2^32` bytes
and the low half of its length is a positive `int`. -/
theorem dictionary_one_token_iff (seed : Block) :
    (∀ (std : Sorter) (autoToken : TokenMap) (orig : Block) (useful : List Bool) (target : Target),
      orig.size = maxTokenSize → useful.length = seed.size →
        Selected autoToken (selectTokens std autoToken) ∧
        (∀ case ∈ casesOf (dictionaryReplace target orig (seedLen seed)
          (selectTokens std autoToken)) (.start seed useful),
            OneReplaced seed (selectTokens std autoToken) case) ∧
        (∀ case ∈ casesOf (dictionaryInsert target (seedLen seed)
          (selectTokens std autoToken)) (.start seed useful),
            OneInserted seed (selectTokens std autoToken) case)) ↔
      seed.size < 2 ^ 32 ∨ 2 ^ 31 ≤ seed.size % 2 ^ 32 := by
  constructor
  · intro h
    by_contra hcond
    rw [not_or, Nat.not_lt, Nat.not_le] at hcond
    obtain ⟨e, case, hcase, hlen⟩ :=
      truncated_case hcond.1 hcond.2 (show zeroBuffer.size = _ from rfl)
    obtain ⟨-, hreplaced, -⟩ := h .stable (singleToken e) zeroBuffer (allUseful seed)
      (calm fun _ _ => 0) rfl (length_allUseful seed)
    rw [selectTokens_singleToken] at hreplaced
    refine not_oneReplaced ?_ (hreplaced case hcase)
    have hmod := Nat.mod_lt seed.size (show 0 < 2 ^ 32 by decide)
    omega
  · intro hcond std autoToken orig useful target horig huseful
    have hselected := selectTokens_spec std autoToken
    refine ⟨hselected, fun case hcase => ?_, fun case hcase => oneInserted_of_mem hcase⟩
    -- above `2^31` the stage faults before it executes anything
    by_cases hsmall : seed.size < 2 ^ 31
    · exact oneReplaced_of_mem hselected.byLength horig huseful hsmall hcase
    · rw [no_cases_of_negative (by omega)] at hcase
      cases hcase

/-- Of the seed with a token over it nothing at all reaches the program under test. -/
theorem huge_seed_cut_off : ∃ e : Entry, selectTokens .stable (singleToken e) = [e] ∧
    [] ∈ casesOf (dictionaryReplace (calm fun _ _ => 0) zeroBuffer (seedLen hugeSeed) [e])
      (.start hugeSeed (allUseful hugeSeed)) ∧ ¬OneReplaced hugeSeed [e] [] := by
  have hsize := size_hugeSeed
  obtain ⟨e, case, hcase, hlen⟩ := truncated_case (Nat.le_of_eq hsize.symm)
    (by rw [hsize]; decide) (show zeroBuffer.size = _ from rfl)
  rw [hsize, Nat.mod_self, List.length_eq_zero_iff] at hlen
  refine ⟨e, selectTokens_singleToken _ e, hlen ▸ hcase, not_oneReplaced ?_⟩
  rw [hsize]
  decide

end DistFuzz.Fuzzer
