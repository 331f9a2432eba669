import DistFuzz.Fuzzer.Stages

/-!
# The automatic dictionary (FuzzOne.cpp:646–756)

`Dictionary` takes the tokens that occurred most often, orders them by length, writes
each of them over every position of the seed (`DictionaryReplace`) and inserts each of
them at every position (`DictionaryInsert`). `DictionaryReplace` does not put back what
stood at a position between two tokens: a longer token covers all of a shorter one.

- `Sorter`: what `std::sort` promises; `selectTokens`, `selectTokens_spec`: the selection.
- `copyLen`: `min(MAX_TOKEN_SIZE, (int)(len - i))`, which goes on as a `size_t`.
- `dictionaryReplace`, `dictionaryInsert`, `dictionary`: the stages.
- `dictionaryReplace_logs`, `dictionaryInsert_logs`, `dictionary_logs`: what they try, and
  that they leave the buffer as it was.
-/

namespace DistFuzz.Fuzzer

open DistFuzz.Lib

/-! ## The selection -/

/-- A token and how often it was found. -/
abbrev Entry := Token × UInt32

/-- What `std::sort` does with a strict weak ordering. It says nothing of the order of
equivalent elements. -/
structure Sorter where
  sort : (Entry → Entry → Bool) → List Entry → List Entry
  perm : ∀ lt l, (sort lt l).Perm l
  sorted : ∀ lt l, (∀ a b c, lt b a = false → lt c b = false → lt c a = false) →
    (∀ a b, lt b a = false ∨ lt a b = false) → (sort lt l).Pairwise fun a b => lt b a = false

/-- `MAX_TOKEN_NUM`. -/
def maxTokenNum : Nat := 50

/-- `CompareMVectorValue`. -/
def compareMVectorValue (obj1 obj2 : Entry) : Bool := obj1.2 > obj2.2

/-- `CompareMVectorStringLen`. -/
def compareMVectorStringLen (obj1 obj2 : Entry) : Bool :=
  obj1.1.bytes.length < obj2.1.bytes.length

/-- The first part of `Dictionary`. -/
def selectTokens (std : Sorter) (autoToken : TokenMap) : List Entry :=
  let mVector := autoToken.entries
  let mVector := if mVector.length > maxTokenNum
    then (std.sort compareMVectorValue mVector).take maxTokenNum else mVector
  std.sort compareMVectorStringLen mVector

/-- No shorter token comes after a longer one. -/
def ByLength (tokens : List Entry) : Prop :=
  tokens.Pairwise fun a b => a.1.bytes.length ≤ b.1.bytes.length

/-- The kept tokens are ordered by length, there are at most `MAX_TOKEN_NUM`, and no token
that was dropped occurred more often than one that was kept. -/
structure Selected (autoToken : TokenMap) (kept : List Entry) : Prop where
  byLength : ByLength kept
  length_eq : kept.length = min maxTokenNum autoToken.entries.length
  nodup : (kept.map Prod.fst).Nodup
  subset : ∀ e ∈ kept, e ∈ autoToken.entries
  best : ∀ e ∈ autoToken.entries, e ∉ kept → ∀ k ∈ kept, e.2 ≤ k.2

theorem Sorter.byLength (std : Sorter) (l : List Entry) :
    ByLength (std.sort compareMVectorStringLen l) := by
  have hsorted := std.sorted compareMVectorStringLen l
    (fun a b c h h' => by
      simp only [compareMVectorStringLen, decide_eq_false_iff_not, Nat.not_lt] at h h' ⊢
      exact Nat.le_trans h h')
    (fun a b => by
      simp only [compareMVectorStringLen, decide_eq_false_iff_not, Nat.not_lt]
      exact Nat.le_total _ _)
  refine hsorted.imp fun h => ?_
  rwa [compareMVectorStringLen, decide_eq_false_iff_not, Nat.not_lt] at h

theorem Sorter.byValue (std : Sorter) (l : List Entry) :
    (std.sort compareMVectorValue l).Pairwise fun a b => b.2 ≤ a.2 := by
  have hsorted := std.sorted compareMVectorValue l
    (fun a b c h h' => by
      simp only [compareMVectorValue, decide_eq_false_iff_not, gt_iff_lt, UInt32.not_lt] at h h' ⊢
      exact UInt32.le_trans h' h)
    (fun a b => by
      simp only [compareMVectorValue, decide_eq_false_iff_not, gt_iff_lt, UInt32.not_lt]
      exact UInt32.le_total _ _)
  refine hsorted.imp fun h => ?_
  rwa [compareMVectorValue, decide_eq_false_iff_not, gt_iff_lt, UInt32.not_lt] at h

/-- The part that is kept before the second sort. -/
theorem selected_of_take (std : Sorter) {autoToken : TokenMap} {l : List Entry}
    (hperm : l.Perm autoToken.entries)
    (hbest : autoToken.entries.length ≤ maxTokenNum ∨ l.Pairwise fun a b => b.2 ≤ a.2) :
    Selected autoToken (std.sort compareMVectorStringLen (l.take maxTokenNum)) := by
  have hkept := std.perm compareMVectorStringLen (l.take maxTokenNum)
  have hsub : (l.take maxTokenNum).Sublist l := List.take_sublist _ _
  refine ⟨std.byLength _, ?_, ?_, fun e he => ?_, fun e he hdropped k hk => ?_⟩
  · rw [hkept.length_eq, List.length_take, hperm.length_eq]
  · have hnodup : (l.map Prod.fst).Nodup := (hperm.map Prod.fst).nodup_iff.mpr autoToken.nodup
    exact (hkept.map Prod.fst).nodup_iff.mpr ((hsub.map Prod.fst).nodup hnodup)
  · exact hperm.subset (hsub.subset (hkept.subset he))
  -- what was dropped came behind all that was kept when the list was cut
  · have hel : e ∈ l := hperm.mem_iff.mpr he
    rw [hkept.mem_iff] at hdropped hk
    rw [← List.take_append_drop maxTokenNum l] at hel
    have hdrop : e ∈ l.drop maxTokenNum := (List.mem_append.mp hel).resolve_left hdropped
    rcases hbest with hfew | hsorted
    · rw [List.drop_eq_nil_of_le (hperm.length_eq ▸ hfew)] at hdrop
      cases hdrop
    · rw [← List.take_append_drop maxTokenNum l, List.pairwise_append] at hsorted
      exact hsorted.2.2 k hk e hdrop

/-- **The selection** keeps the most frequent tokens and orders them by length. -/
theorem selectTokens_spec (std : Sorter) (autoToken : TokenMap) :
    Selected autoToken (selectTokens std autoToken) := by
  rw [selectTokens]
  by_cases hmany : autoToken.entries.length > maxTokenNum
  · simp only [hmany, if_true]
    exact selected_of_take std (std.perm _ _) (.inr (std.byValue _))
  · simp only [hmany, if_false]
    have hfew := Nat.le_of_not_lt hmany
    have hall := selected_of_take std (List.Perm.refl autoToken.entries) (.inl hfew)
    rwa [List.take_of_length_le hfew] at hall

/-! ## The stages -/

/-- `min(MAX_TOKEN_SIZE, (int)(len - i))`, as the `size_t` that `memcpy` gets. -/
def copyLen (rest : UInt64) : Nat :=
  (min (maxTokenSize : Int) (BitVec.ofNat 32 rest.toNat).toInt % 2 ^ 64).toNat

section Stage

variable (target : Target)

/-- What `DictionaryReplace` does with one token at position `i`; `orig` is the local
buffer with what stood there. -/
def replaceToken (len : UInt64) (i : Nat) (orig : Block) (token : Token) : Stage Unit := do
  if UInt64.ofNat token.bytes.length > len - UInt64.ofNat i then return
  else
    let same ← access .fault fun _ =>
      (orig.read 0 token.bytes.length).map fun xs => decide (xs = token.bytes)
    if same then return
    else if ← anyUseful i token.bytes.length then
      update .fault fun s =>
        (s.filemap.write i token.bytes).map fun b => { s with filemap := b }
      let _ ← Stage.fuzzUnit target (byteWindow i token.bytes.length) StageState.filemap len
    else return

/-- One turn of `DictionaryReplace`. -/
def replaceTurn (len : UInt64) (tokens : List Entry) (i : Nat) (orig : Block) : Stage Block := do
  let n := copyLen (len - UInt64.ofNat i)
  let orig ← access .fault fun s => orig.memcpy 0 s.filemap i n
  forEach tokens () fun token _ => replaceToken target len i orig token.1
  update .fault fun s => (s.filemap.memcpy i orig 0 n).map fun b => { s with filemap := b }
  return orig

/-- `DictionaryReplace`; `orig` is the content of the local buffer at the start. -/
def dictionaryReplace (orig : Block) (len : UInt64) (tokens : List Entry) : Stage Unit := do
  let _ ← forRange len.toNat orig (replaceTurn target len tokens)

/-- What `DictionaryInsert` does with one token at position `i`. -/
def insertToken (len : UInt64) (i : Nat) (token : Token) (temp : Block) : Stage Block := do
  if len + UInt64.ofNat token.bytes.length > maxFileLen then return temp
  else
    let temp ← access .fault fun _ => temp.write i token.bytes
    let temp ← access .fault fun s =>
      temp.memcpy (i + token.bytes.length) s.filemap i (len - UInt64.ofNat i).toNat
    let _ ← Stage.fuzzUnit target (byteWindow i token.bytes.length) (fun _ => temp)
      (len + UInt64.ofNat token.bytes.length)
    return temp

/-- One turn of `DictionaryInsert`. -/
def insertTurn (len : UInt64) (tokens : List Entry) (i : Nat) (temp : Block) : Stage Block := do
  let temp ← forEach tokens temp fun token temp => insertToken target len i token.1 temp
  access .fault fun s => temp.memcpy i s.filemap i 1

/-- `DictionaryInsert`. -/
def dictionaryInsert (len : UInt64) (tokens : List Entry) : Stage Unit := do
  let temp ← access .fault fun _ => Block.new (len + UInt64.ofNat maxTokenSize).toNat
  let _ ← forRange len.toNat temp (insertTurn target len tokens)

end Stage

/-! ## What `DictionaryReplace` does -/

section Replace

variable {target : Target} {seed : Block} {useful : List Bool} {len : UInt64} {i : Nat}

/-- The `int` is not negative. -/
theorem copyLen_eq {rest : UInt64} (h : rest.toNat % 2 ^ 32 < 2 ^ 31) :
    copyLen rest = min maxTokenSize (rest.toNat % 2 ^ 32) := by
  have hint : (BitVec.ofNat 32 rest.toNat).toInt = (rest.toNat % 2 ^ 32 : Nat) := by
    rw [BitVec.toInt_eq_toNat_cond, BitVec.toNat_ofNat, if_pos (by omega)]
  rw [copyLen, hint]
  unfold maxTokenSize
  omega

/-- The `int` is negative. -/
theorem copyLen_of_negative {rest : UInt64} (h : 2 ^ 31 ≤ rest.toNat % 2 ^ 32) :
    2 ^ 63 ≤ copyLen rest := by
  have hint : (BitVec.ofNat 32 rest.toNat).toInt = (rest.toNat % 2 ^ 32 : Nat) - 2 ^ 32 := by
    rw [BitVec.toInt_eq_toNat_cond, BitVec.toNat_ofNat, if_neg (by omega)]
    rfl
  rw [copyLen, hint]
  unfold maxTokenSize
  omega

/-- `token_len` as it meets a `u64`. -/
theorem toNat_tokenLen (token : Token) :
    (UInt64.ofNat token.bytes.length).toNat = token.bytes.length :=
  UInt64.toNat_ofNat_of_lt (Nat.lt_of_le_of_lt token.le_max (by decide))

theorem toNat_rest (hlen : len.toNat = seed.size) (hi : i < seed.size) :
    (len - UInt64.ofNat i).toNat = seed.size - i := by
  have hlt : seed.size < 2 ^ 63 := seed.length_lt
  have hof : (UInt64.ofNat i).toNat = i :=
    UInt64.toNat_ofNat_of_lt (hi.trans (hlt.trans (by decide)))
  rw [UInt64.toNat_sub_of_le _ _ (by rw [UInt64.le_iff_toNat_le]; omega), hof, hlen]

/-- The token is tried at a position from which on there are `rest` bytes and where `orig`
is taken to stand. -/
def appliesAt (orig : List UInt8) (rest : Nat) (useful : List Bool) (i : Nat) (token : Token) :
    Bool :=
  decide (token.bytes.length ≤ rest) && decide (orig.take token.bytes.length ≠ token.bytes) &&
    usefulIn useful i token.bytes.length

/-- The buffer is the seed with nothing, or with one of these tokens, at `i`. -/
def Overlaid (seed : Block) (useful : List Bool) (i : Nat) (done : List Entry) (s : StageState) :
    Prop :=
  ∃ xs, (xs = [] ∨ ∃ e ∈ done, xs = e.1.bytes) ∧ i + xs.length ≤ seed.size ∧
    s.filemap.bytes = overwrite seed.bytes i xs ∧ s.usefulByte = useful

theorem Overlaid.mono {done done' : List Entry} (h : ∀ e ∈ done, e ∈ done') {s : StageState}
    (hs : Overlaid seed useful i done s) : Overlaid seed useful i done' s := by
  obtain ⟨xs, hxs, hrest⟩ := hs
  exact ⟨xs, hxs.imp_right fun ⟨e, he, heq⟩ => ⟨e, h e he, heq⟩, hrest⟩

/-- The trial of one token. -/
def replaceTrial (seed : Block) (len : UInt64) (i : Nat) (token : Token) : Trial :=
  ⟨byteWindow i token.bytes.length, caseOf len (overwrite seed.bytes i token.bytes)⟩

/-- A token is written over the shorter one before it. -/
theorem overlayToken_logs {token : Token} {done : List Entry} {e : Entry} (he : e.1 = token)
    (hlen : len.toNat = seed.size) (hfit : i + token.bytes.length ≤ seed.size)
    (hshort : ∀ e ∈ done, e.1.bytes.length ≤ token.bytes.length) :
    StageLogs target (Overlaid seed useful i done)
      (do
        update .fault fun s =>
          (s.filemap.write i token.bytes).map fun b => { s with filemap := b }
        let _ ← Stage.fuzzUnit target (byteWindow i token.bytes.length) StageState.filemap len)
      (fun _ => Overlaid seed useful i (done ++ [e])) [replaceTrial seed len i token] := by
  have hwrite : StageLogs target (Overlaid seed useful i done)
      (update .fault fun s => (s.filemap.write i token.bytes).map fun b => { s with filemap := b })
      (fun _ s => s.filemap.bytes = overwrite seed.bytes i token.bytes ∧ s.usefulByte = useful)
      [] := by
    refine logs_update fun s hs => ?_
    obtain ⟨xs, hxs, hin, hbytes, huseful⟩ := hs
    -- the tokens come shortest first, so this one covers what the last one wrote
    have hle : xs.length ≤ token.bytes.length := by
      rcases hxs with rfl | ⟨e, he, rfl⟩
      · exact Nat.zero_le _
      · exact hshort e he
    have hsize : i + token.bytes.length ≤ s.filemap.size := by
      rwa [Block.size, hbytes, length_overwrite hin]
    obtain ⟨b, hb, hbytes'⟩ := Block.write_eq hsize
    refine ⟨{ s with filemap := b }, by rw [hb, Option.map_some], ⟨?_, huseful⟩, rfl⟩
    rw [hbytes', hbytes, overwrite_of_le hle hfit]
  have hpure : ∀ cksum : UInt32, StageLogs target (Overlaid seed useful i (done ++ [e]))
      (pure () : Stage Unit) (fun _ => Overlaid seed useful i (done ++ [e])) [] :=
    fun _ => logs_pure fun s hs => hs
  refine hwrite.before fun _ => Logs.after (fuzzUnit_logs fun s hs => ⟨?_, ?_⟩) hpure
  · have hsize : len.toNat = s.filemap.size := by
      rw [hlen, Block.size, Block.size, hs.1, length_overwrite hfit]
    rw [read_case hsize.le, hs.1]
  · exact ⟨token.bytes, .inr ⟨e, List.mem_append_right _ List.mem_cons_self, by rw [he]⟩, hfit, hs⟩

/-- **One token at one position**: it is tried unless it is too long, is taken to stand
there already or covers no useful byte. -/
theorem replaceToken_logs {orig : Block} {e : Entry} {done : List Entry}
    (hlen : len.toNat = seed.size) (huseful : useful.length = seed.size) (hi : i < seed.size)
    (horig : orig.size = maxTokenSize)
    (hshort : ∀ e' ∈ done, e'.1.bytes.length ≤ e.1.bytes.length) :
    StageLogs target (Overlaid seed useful i done) (replaceToken target len i orig e.1)
      (fun _ => Overlaid seed useful i (done ++ [e]))
      (if appliesAt orig.bytes (seed.size - i) useful i e.1
        then [replaceTrial seed len i e.1] else []) := by
  have hmax := e.1.le_max
  have hskip : StageLogs target (Overlaid seed useful i done) (pure () : Stage Unit)
      (fun _ => Overlaid seed useful i (done ++ [e])) [] :=
    logs_pure fun s hs => hs.mono fun e he => List.mem_append_left _ he
  have hlong : UInt64.ofNat e.1.bytes.length > len - UInt64.ofNat i
      ↔ ¬e.1.bytes.length ≤ seed.size - i := by
    rw [gt_iff_lt, UInt64.lt_iff_toNat_lt, toNat_rest hlen hi, toNat_tokenLen, Nat.not_le]
  rw [replaceToken, appliesAt]
  -- the three ways to pass a token over are checked in the order of the source
  by_cases hfit : e.1.bytes.length ≤ seed.size - i
  · rw [if_neg fun h => hlong.mp h hfit, decide_eq_true hfit, Bool.true_and]
    have hread : StageLogs target (Overlaid seed useful i done)
        (access .fault fun _ =>
          (orig.read 0 e.1.bytes.length).map fun xs => decide (xs = e.1.bytes))
        (fun same s => same = decide (orig.bytes.take e.1.bytes.length = e.1.bytes) ∧
          Overlaid seed useful i done s) [] := by
      refine logs_access fun s hs => ⟨_, ?_, rfl, hs⟩
      rw [Block.read_front (by rw [horig]; exact hmax), Option.map_some]
    refine hread.before fun same => logs_of_start fun s hs => ?_
    rw [hs.1]
    -- `orig` is compared, not the buffer, which still holds the token before
    by_cases hsame : orig.bytes.take e.1.bytes.length = e.1.bytes
    · simp only [hsame, decide_true, if_true, ne_eq, not_true_eq_false, decide_false,
        Bool.false_and, Bool.false_eq_true, if_false]
      exact hskip.mono (fun s hs => hs.2) fun _ s hs => hs
    · simp only [hsame, decide_true, ne_eq, not_false_eq_true, decide_false,
        Bool.true_and, Bool.false_eq_true, if_false]
      have huse : StageLogs target (Overlaid seed useful i done)
          (anyUseful i e.1.bytes.length) (fun b s => b = usefulIn useful i e.1.bytes.length ∧
            Overlaid seed useful i done s) [] :=
        anyUseful_logs (fun s hs => by obtain ⟨-, -, -, -, h⟩ := hs; exact h) (by omega)
      refine (huse.mono (fun s hs => hs.2) fun b s hs => hs).before fun b =>
        logs_of_start fun s hs => ?_
      rw [hs.1]
      refine logs_ite (fun _ => ?_) fun _ => ?_
      · exact (overlayToken_logs rfl hlen (by omega) hshort).mono (fun s hs => hs.2)
          fun _ s hs => hs
      · exact hskip.mono (fun s hs => hs.2) fun _ s hs => hs
  · rw [if_pos (hlong.mpr hfit), decide_eq_false hfit, Bool.false_and, Bool.false_and,
      if_neg Bool.false_ne_true]
    exact hskip

/-- The trials at position `i`. -/
def replaceTrials (seed : Block) (useful : List Bool) (len : UInt64) (tokens : List Entry)
    (i : Nat) : List Trial :=
  tokens.flatMap fun e =>
    if appliesAt (seed.bytes.drop i) (seed.size - i) useful i e.1
    then [replaceTrial seed len i e.1] else []

/-- What was saved is compared as what stands there. -/
theorem appliesAt_of_take {orig orig' : List UInt8} {rest : Nat}
    (h : orig.take (min maxTokenSize rest) = orig'.take (min maxTokenSize rest)) (token : Token) :
    appliesAt orig rest useful i token = appliesAt orig' rest useful i token := by
  rw [appliesAt, appliesAt]
  by_cases hfit : token.bytes.length ≤ rest
  · have htake := congrArg (List.take token.bytes.length) h
    rw [List.take_take, List.take_take,
      Nat.min_eq_left (Nat.le_min.mpr ⟨token.le_max, hfit⟩)] at htake
    rw [htake]
  · simp only [hfit, decide_false, Bool.false_and]

theorem replaceTokens_logs {orig : Block} {tokens : List Entry} (htokens : ByLength tokens)
    (hlen : len.toNat = seed.size) (huseful : useful.length = seed.size) (hi : i < seed.size)
    (horig : orig.size = maxTokenSize)
    (hcopy : orig.bytes.take (min maxTokenSize (seed.size - i))
      = (seed.bytes.drop i).take (min maxTokenSize (seed.size - i))) :
    StageLogs target (Overlaid seed useful i [])
      (forEach tokens () fun token _ => replaceToken target len i orig token.1)
      (fun _ => Overlaid seed useful i tokens) (replaceTrials seed useful len tokens i) := by
  -- the invariant names the tokens done so far, the shorter ones
  refine logs_forEach (fun done _ => Overlaid seed useful i done)
    (fun e => if appliesAt (seed.bytes.drop i) (seed.size - i) useful i e.1
      then [replaceTrial seed len i e.1] else []) (fun done e rest htok _ => ?_) ()
  rw [← appliesAt_of_take hcopy]
  refine replaceToken_logs hlen huseful hi horig fun e' he' => ?_
  rw [ByLength, htok, List.pairwise_append] at htokens
  exact htokens.2.2 e' he' e List.mem_cons_self

/-- What stands at the position is saved. -/
theorem saveOrig_logs {orig : Block} {n : Nat} (hn : n ≤ maxTokenSize)
    (hfit : i + n ≤ seed.size) :
    StageLogs target (fun s => orig.size = maxTokenSize ∧ Intact seed useful s)
      (access .fault fun s => orig.memcpy 0 s.filemap i n)
      (fun orig s => (orig.size = maxTokenSize ∧ orig.bytes.take n = (seed.bytes.drop i).take n) ∧
        Overlaid seed useful i [] s) [] := by
  refine logs_access fun s hs => ?_
  obtain ⟨horig, hfile, hmap⟩ := hs
  have hlen : ((seed.bytes.drop i).take n).length = n := by
    change i + n ≤ seed.bytes.length at hfit
    rw [List.length_take, List.length_drop]
    omega
  obtain ⟨b, hb, hbytes⟩ := Block.memcpy_eq (show 0 + n ≤ orig.size by omega) hfit
  refine ⟨b, hfile ▸ hb, ⟨?_, ?_⟩, [], .inl rfl, Nat.le_trans (Nat.le_add_right _ _) hfit, ?_, hmap⟩
  · rw [Block.size, hbytes, length_overwrite (by rw [hlen, ← Block.size]; omega), ← horig]
    rfl
  -- the copy starts at the front of `orig`, whose later bytes are older
  · have hend := take_overwrite_end (Nat.zero_le orig.bytes.length) ((seed.bytes.drop i).take n)
    rwa [hlen, Nat.zero_add, List.take_zero, List.nil_append, ← hbytes] at hend
  · rw [hfile, overwrite_nil]

/-- Whatever token covers it, what was saved is put back. -/
theorem restoreOrig_logs {orig : Block} {tokens : List Entry} {n : Nat}
    (hn : n = min maxTokenSize (seed.size - i)) (hfit : i + n ≤ seed.size)
    (horig : orig.size = maxTokenSize)
    (hcopy : orig.bytes.take n = (seed.bytes.drop i).take n) :
    StageLogs target (Overlaid seed useful i tokens)
      (update .fault fun s => (s.filemap.memcpy i orig 0 n).map fun b => { s with filemap := b })
      (fun _ => Intact seed useful) [] := by
  refine logs_update fun s hs => ?_
  obtain ⟨xs, hxs, hin, hbytes, hmap⟩ := hs
  -- no token reaches beyond what was saved
  have hle : xs.length ≤ n := by
    rcases hxs with rfl | ⟨e, -, rfl⟩
    · exact Nat.zero_le _
    · have hmax := e.1.le_max
      omega
  have hsize : i + n ≤ s.filemap.size := by rwa [Block.size, hbytes, length_overwrite hin]
  obtain ⟨b, hb, hb'⟩ := Block.memcpy_eq hsize (show 0 + n ≤ orig.size by omega)
  refine ⟨{ s with filemap := b }, by rw [hb, Option.map_some], ⟨Block.eq_of_bytes ?_, hmap⟩, rfl⟩
  rw [hb', List.drop_zero, hcopy, hbytes, overwrite_undo hle hfit]

/-- **One position**: each token in turn, and the seed is put back. -/
theorem replaceTurn_logs {orig : Block} {tokens : List Entry} (htokens : ByLength tokens)
    (hlen : len.toNat = seed.size) (huseful : useful.length = seed.size)
    (hsmall : seed.size < 2 ^ 31) (hi : i < seed.size) :
    StageLogs target (fun s => orig.size = maxTokenSize ∧ Intact seed useful s)
      (replaceTurn target len tokens i orig)
      (fun orig s => orig.size = maxTokenSize ∧ Intact seed useful s)
      (replaceTrials seed useful len tokens i) := by
  have hn : copyLen (len - UInt64.ofNat i) = min maxTokenSize (seed.size - i) := by
    rw [copyLen_eq (by rw [toNat_rest hlen hi]; omega), toNat_rest hlen hi,
      Nat.mod_eq_of_lt (by omega)]
  have hfit : i + min maxTokenSize (seed.size - i) ≤ seed.size := by omega
  rw [replaceTurn, hn]
  refine (saveOrig_logs (Nat.min_le_left _ _) hfit).before fun orig => logs_of_start fun s hs => ?_
  obtain ⟨⟨horig, hcopy⟩, -⟩ := hs
  -- save, try, and put back
  have htry : StageLogs target (Overlaid seed useful i [])
      (forEach tokens () fun token _ => replaceToken target len i orig token.1)
      (fun _ => Overlaid seed useful i tokens) (replaceTrials seed useful len tokens i) :=
    replaceTokens_logs htokens hlen huseful hi horig hcopy
  refine Logs.after (htry.mono (fun s hs => hs.2) fun _ s hs => hs) fun _ => ?_
  exact Logs.before (restoreOrig_logs rfl hfit horig hcopy) fun _ =>
    logs_pure fun s hs => ⟨horig, hs⟩

/-- **`DictionaryReplace`** tries each selected token at each position and leaves the
buffer as it was. -/
theorem dictionaryReplace_logs {orig : Block} {tokens : List Entry} (htokens : ByLength tokens)
    (hlen : len.toNat = seed.size) (huseful : useful.length = seed.size)
    (hsmall : seed.size < 2 ^ 31) (horig : orig.size = maxTokenSize) :
    StageLogs target (Intact seed useful) (dictionaryReplace target orig len tokens)
      (fun _ => Intact seed useful)
      ((List.range seed.size).flatMap (replaceTrials seed useful len tokens)) := by
  have hturn : ∀ i, i < seed.size → ∀ orig, StageLogs target
      (fun s => orig.size = maxTokenSize ∧ Intact seed useful s)
      (replaceTurn target len tokens i orig)
      (fun orig s => orig.size = maxTokenSize ∧ Intact seed useful s)
      (replaceTrials seed useful len tokens i) :=
    fun i hi orig => replaceTurn_logs htokens hlen huseful hsmall hi
  have hloop := logs_forRange
    (fun _ (orig : Block) s => orig.size = maxTokenSize ∧ Intact seed useful s)
    (replaceTrials seed useful len tokens) hturn orig
  have hpure : ∀ orig : Block, StageLogs target
      (fun s => orig.size = maxTokenSize ∧ Intact seed useful s) (pure () : Stage Unit)
      (fun _ => Intact seed useful) [] := fun _ => logs_pure fun s hs => hs.2
  rw [dictionaryReplace, hlen]
  exact (hloop.after hpure).mono (fun s hs => ⟨horig, hs⟩) fun _ s hs => hs

end Replace

/-! ## What `DictionaryInsert` does -/

section Insert

variable {target : Target} {seed : Block} {useful : List Bool} {len : UInt64} {i : Nat}

/-- `seed[0..i) ++ token ++ seed[i..)`. -/
def inserted (seed : Block) (i : Nat) (token : Token) : List UInt8 :=
  seed.bytes.take i ++ token.bytes ++ seed.bytes.drop i

/-- The trials of one token at position `i`. -/
def insertTrials (seed : Block) (i : Nat) (token : Token) : List Trial :=
  if seed.size + token.bytes.length ≤ maxFileLen.toNat
  then [⟨byteWindow i token.bytes.length, inserted seed i token⟩] else []

/-- `temp` holds the seed up to position `i`. The rest of it is what the last insertion left
there. -/
def Temp (seed : Block) (i : Nat) (temp : Block) : Prop :=
  temp.size = seed.size + maxTokenSize ∧ temp.bytes.take i = seed.bytes.take i

/-- The two copies put the token between the two parts of the seed. -/
theorem Temp.insert {temp : Block} (h : Temp seed i temp) (hi : i < seed.size) (token : Token) :
    ∃ temp₁ temp₂, temp.write i token.bytes = some temp₁ ∧
      temp₁.memcpy (i + token.bytes.length) seed i (seed.size - i) = some temp₂ ∧
      Temp seed i temp₂ ∧
      temp₂.bytes.take (seed.size + token.bytes.length) = inserted seed i token := by
  obtain ⟨hsize, htake⟩ := h
  have hmax := token.le_max
  have hfit : i + token.bytes.length ≤ temp.size := by omega
  obtain ⟨temp₁, hwrite, hbytes₁⟩ := Block.write_eq hfit
  have hsize₁ : temp₁.size = temp.size := by
    rw [Block.size, hbytes₁]
    exact length_overwrite hfit
  obtain ⟨temp₂, hcopy, hbytes₂⟩ := Block.memcpy_eq
    (show i + token.bytes.length + (seed.size - i) ≤ temp₁.size by omega)
    (show i + (seed.size - i) ≤ seed.size by omega)
  -- the rest of the seed is copied whole
  have hdrop : (seed.bytes.drop i).take (seed.size - i) = seed.bytes.drop i := by
    refine List.take_of_length_le ?_
    rw [List.length_drop]
    exact Nat.le_refl _
  have hlen : (seed.bytes.drop i).length = seed.size - i := List.length_drop
  have hle₁ : i + token.bytes.length ≤ temp₁.bytes.length := by
    change temp₁.bytes.length = _ at hsize₁
    omega
  rw [hdrop] at hbytes₂
  -- the bytes before the position stay, and the token follows
  have hhead : temp₁.bytes.take (i + token.bytes.length) = seed.bytes.take i ++ token.bytes := by
    rw [hbytes₁, take_overwrite_end (by rw [← Block.size]; omega), htake]
  refine ⟨temp₁, temp₂, hwrite, hcopy, ⟨?_, ?_⟩, ?_⟩
  · rw [Block.size, hbytes₂, length_overwrite (by rw [hlen, ← Block.size]; omega), ← Block.size,
      hsize₁, hsize]
  · rw [hbytes₂, take_overwrite_of_le hle₁ (Nat.le_add_right _ _), hbytes₁,
      take_overwrite_of_le (by rw [← Block.size]; omega) (Nat.le_refl i), htake]
  · have hend := take_overwrite_end hle₁ (seed.bytes.drop i)
    have hsum : i + token.bytes.length + (seed.size - i) = seed.size + token.bytes.length := by
      omega
    rwa [hlen, ← hbytes₂, hhead, hsum] at hend

theorem insertToken_logs {token : Token} {temp : Block} (hlen : len.toNat = seed.size)
    (hi : i < seed.size) :
    StageLogs target (fun s => Temp seed i temp ∧ Intact seed useful s)
      (insertToken target len i token temp)
      (fun temp s => Temp seed i temp ∧ Intact seed useful s) (insertTrials seed i token) := by
  have hmax := token.le_max
  have hlt : seed.size < 2 ^ 63 := seed.length_lt
  have hsum : (len + UInt64.ofNat token.bytes.length).toNat = seed.size + token.bytes.length := by
    unfold maxTokenSize at hmax
    rw [UInt64.toNat_add, toNat_tokenLen, hlen, Nat.mod_eq_of_lt (by omega)]
  have hlong : len + UInt64.ofNat token.bytes.length > maxFileLen
      ↔ ¬seed.size + token.bytes.length ≤ maxFileLen.toNat := by
    rw [gt_iff_lt, UInt64.lt_iff_toNat_lt, hsum, Nat.not_le]
  rw [insertToken, insertTrials]
  -- a case above the limit of a file is passed over
  by_cases hfit : seed.size + token.bytes.length ≤ maxFileLen.toNat
  · rw [if_neg fun h => hlong.mp h hfit, if_pos hfit]
    refine logs_of_start fun s hs => ?_
    obtain ⟨temp₁, temp₂, hwrite, hcopy, htemp, hcase⟩ := hs.1.insert hi token
    have hread : StageLogs target (fun s => Temp seed i temp ∧ Intact seed useful s)
        (access .fault fun _ => temp.write i token.bytes)
        (fun b s => b = temp₁ ∧ Intact seed useful s) [] :=
      logs_access fun s hs => ⟨temp₁, hwrite, rfl, hs.2⟩
    have hmove : StageLogs target (Intact seed useful)
        (access .fault fun s =>
          temp₁.memcpy (i + token.bytes.length) s.filemap i (len - UInt64.ofNat i).toNat)
        (fun b s => b = temp₂ ∧ Intact seed useful s) [] := by
      refine logs_access fun s hs => ⟨temp₂, ?_, rfl, hs⟩
      rw [hs.1, toNat_rest hlen hi, hcopy]
    refine hread.before fun b => logs_of_start fun s hs => ?_
    rw [hs.1]
    refine (hmove.mono (fun s hs => hs.2) fun b s hs => hs).before fun b =>
      logs_of_start fun s hs => ?_
    rw [hs.1]
    have hunit : StageLogs target (Intact seed useful)
        (Stage.fuzzUnit target (byteWindow i token.bytes.length) (fun _ => temp₂)
          (len + UInt64.ofNat token.bytes.length))
        (fun _ => Intact seed useful)
        [⟨byteWindow i token.bytes.length, inserted seed i token⟩] := by
      refine fuzzUnit_logs fun s hs => ⟨?_, hs⟩
      -- the limit is below `2^32`, so the `u32` holds the length
      have hcut : (len + UInt64.ofNat token.bytes.length).toUInt32.toNat
          = seed.size + token.bytes.length := by
        rw [UInt64.toNat_toUInt32, hsum, Nat.mod_eq_of_lt (Nat.lt_of_le_of_lt hfit (by decide))]
      rw [hcut, Block.read_front (by rw [htemp.1]; omega), hcase]
    exact (hunit.mono (fun s hs => hs.2) fun _ s hs => hs).after fun _ =>
      logs_pure fun s hs => ⟨htemp, hs⟩
  · rw [if_pos (hlong.mpr hfit), if_neg hfit]
    exact logs_pure fun s hs => hs

/-- The trials at position `i`. -/
def insertTurnTrials (seed : Block) (tokens : List Entry) (i : Nat) : List Trial :=
  tokens.flatMap fun e => insertTrials seed i e.1

theorem insertTurn_logs {tokens : List Entry} {temp : Block} (hlen : len.toNat = seed.size)
    (hi : i < seed.size) :
    StageLogs target (fun s => Temp seed i temp ∧ Intact seed useful s)
      (insertTurn target len tokens i temp)
      (fun temp s => Temp seed (i + 1) temp ∧ Intact seed useful s)
      (insertTurnTrials seed tokens i) := by
  have htry : StageLogs target (fun s => Temp seed i temp ∧ Intact seed useful s)
      (forEach tokens temp fun token temp => insertToken target len i token.1 temp)
      (fun temp s => Temp seed i temp ∧ Intact seed useful s)
      (insertTurnTrials seed tokens i) := by
    have hstep : ∀ (done : List Entry) e rest, tokens = done ++ e :: rest → ∀ temp,
        StageLogs target (fun s => Temp seed i temp ∧ Intact seed useful s)
          (insertToken target len i e.1 temp)
          (fun temp s => Temp seed i temp ∧ Intact seed useful s) (insertTrials seed i e.1) :=
      fun _ e _ _ temp => insertToken_logs hlen hi
    exact logs_forEach (fun _ temp s => Temp seed i temp ∧ Intact seed useful s)
      (fun e : Entry => insertTrials seed i e.1) hstep temp
  refine htry.after fun temp => logs_access fun s hs => ?_
  obtain ⟨⟨hsize, htake⟩, hfile, hmap⟩ := hs
  -- one more byte of the seed is put in front of the position for the next turn
  obtain ⟨b, hb, hbytes⟩ := Block.memcpy_eq (show i + 1 ≤ temp.size by omega)
    (show i + 1 ≤ seed.size from hi)
  have hone : ((seed.bytes.drop i).take 1).length = 1 := by
    rw [List.length_take, List.length_drop]
    change i < seed.bytes.length at hi
    omega
  refine ⟨b, hfile ▸ hb, ⟨?_, ?_⟩, hfile, hmap⟩
  · rw [Block.size, hbytes, length_overwrite (by rw [hone, ← Block.size]; omega), ← Block.size,
      hsize]
  · have hend := take_overwrite_end (show i ≤ temp.bytes.length by rw [← Block.size]; omega)
      ((seed.bytes.drop i).take 1)
    rw [hone, ← hbytes, htake] at hend
    rw [hend, List.take_add]

/-- **`DictionaryInsert`** tries each selected token between any two parts of the seed. -/
theorem dictionaryInsert_logs {tokens : List Entry} (hlen : len.toNat = seed.size)
    (hroom : seed.size + maxTokenSize < 2 ^ 63) :
    StageLogs target (Intact seed useful) (dictionaryInsert target len tokens)
      (fun _ => Intact seed useful)
      ((List.range seed.size).flatMap (insertTurnTrials seed tokens)) := by
  have hnew : (len + UInt64.ofNat maxTokenSize).toNat = seed.size + maxTokenSize := by
    rw [UInt64.toNat_add, hlen]
    exact Nat.mod_eq_of_lt (Nat.lt_trans hroom (by decide))
  -- the buffer is as long as the seed and the longest token together
  have halloc : StageLogs target (Intact seed useful)
      (access .fault fun _ => Block.new (len + UInt64.ofNat maxTokenSize).toNat)
      (fun temp s => Temp seed 0 temp ∧ Intact seed useful s) [] := by
    obtain ⟨temp, htemp, hsize⟩ := Block.exists_new hroom
    exact logs_access fun s hs => ⟨temp, hnew ▸ htemp, ⟨hsize, rfl⟩, hs⟩
  have hloop : ∀ temp, StageLogs target (fun s => Temp seed 0 temp ∧ Intact seed useful s)
      (forRange len.toNat temp (insertTurn target len tokens))
      (fun temp s => Temp seed len.toNat temp ∧ Intact seed useful s)
      ((List.range len.toNat).flatMap (insertTurnTrials seed tokens)) :=
    fun temp => logs_forRange (fun i temp s => Temp seed i temp ∧ Intact seed useful s)
      (insertTurnTrials seed tokens) (fun i hi temp => insertTurn_logs hlen (hlen ▸ hi)) temp
  have hpure : ∀ temp : Block, StageLogs target
      (fun s => Temp seed len.toNat temp ∧ Intact seed useful s) (pure () : Stage Unit)
      (fun _ => Intact seed useful) [] := fun _ => logs_pure fun s hs => hs.2
  rw [dictionaryInsert, ← hlen]
  exact halloc.before fun temp => (hloop temp).after hpure

end Insert

end DistFuzz.Fuzzer
